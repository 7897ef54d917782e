import RabbitControl.Copies
import RabbitControl.Restart
import RabbitControl.UpdateSpec

/-!
# The tree rebuilt after every run

Whatever an application does with parameters that its server holds, and whatever updates arrive from clients, a client
that connects then gets a copy of the tree below the root group (`Server.rebuilt_run`).  Two invariants carry this: the
server keeps the types that its parameters were created with, and it keeps parents and children paired.
-/

namespace RabbitControl

open Lib

/-! ### Kinds -/

theorem TypeDefinition.zeroBlank_withDefault {τ : ValueType} {d : TypeDefinition τ} (h : d.ZeroBlank) (v : Slot τ.Val) :
    (d.withDefault v).ZeroBlank := by
  cases τ <;> exact h

/-- No setter reaches the neutral value. -/
theorem TypeDefinition.zeroBlank_apply {τ : ValueType} {d : TypeDefinition τ} (h : d.ZeroBlank)
    (a : DefinitionSetter τ) :
    (d.apply a).1.ZeroBlank := by
  cases a with
  | setDefault v => exact zeroBlank_withDefault h _
  | clearDefault =>
    show (clearDefault d).1.ZeroBlank
    unfold clearDefault
    split <;> exact zeroBlank_withDefault h _
  | _ => trivial

theorem TypeDefinition.zeroBlank_write {τ : ValueType} {d : TypeDefinition τ} (h : d.ZeroBlank) (all : Bool) :
    (d.write all).2.ZeroBlank := by
  cases τ <;> exact h

namespace Kind

variable {k : Kind}

theorem genuine_value_iff {τ : ValueType} {d : TypeDefinition τ} {v : Slot τ.Val} :
    (Kind.value τ d v).Genuine ↔ τ.readsBack = true ∧ d.ZeroBlank := by
  refine and_congr_right fun _ => ⟨fun h => h rfl, fun h τ' d' v' heq => ?_⟩
  cases heq
  exact h

theorem genuine_group (c : Std.ExtTreeMap Int16 Ref) : (Kind.group c).Genuine := ⟨rfl, fun h => by simp at h⟩

theorem genuine_apply (h : k.Genuine) (a : Setter) : (k.apply a).1.Genuine := by
  cases k with
  | value τ d v =>
    have hd := genuine_value_iff.mp h
    cases a with
    | @setValue σ u =>
      unfold apply
      dsimp only
      split
      · exact genuine_value_iff.mpr hd
      · exact h
    | clearValue => exact genuine_value_iff.mpr hd
    | @definition σ b =>
      unfold apply
      dsimp only
      split
      · next hσ =>
        subst hσ
        exact genuine_value_iff.mpr ⟨hd.1, TypeDefinition.zeroBlank_apply hd.2 b⟩
      · exact h
    | _ => exact h
  | _ => cases a <;> exact h

theorem genuine_write (h : k.Genuine) (all : Bool) : (k.write all).2.Genuine := by
  cases k with
  | value τ d v =>
    obtain ⟨hτ, hd⟩ := genuine_value_iff.mp h
    exact genuine_value_iff.mpr ⟨hτ, TypeDefinition.zeroBlank_write hd all⟩
  | _ => exact h

theorem genuine_make (mem : Memory) (f : CreateFunction) : (Kind.make mem f.type).Genuine := by
  cases f with
  | createBangParameter => exact ⟨rfl, fun h => by cases h⟩
  | createGroupParameter => exact genuine_group ∅
  | _ => exact genuine_value_iff.mpr ⟨rfl, by trivial⟩

end Kind

namespace Parameter

variable {p p' : Parameter}

theorem genuine_apply (h : p.kind.Genuine) (a : Setter) : (p.apply a).1.kind.Genuine := by
  cases a <;> first | exact h | exact Kind.genuine_apply h _

theorem genuine_write (h : p.kind.Genuine) (idOf : Ref → Id) (all : Bool) : (p.write idOf all).2.kind.Genuine := by
  have hfull : (p.writeFull idOf all).2.kind.Genuine := Kind.genuine_write h all
  unfold write
  split
  · next τ d v hk =>
    split
    · rw [hk] at h
      exact Kind.genuine_value_iff.mpr (Kind.genuine_value_iff.mp h)
    · exact hfull
  · exact hfull

theorem Rehung.genuine (h : p.Rehung p') (hp : p.kind.Genuine) : p'.kind.Genuine := by
  rcases h.kind with hk | ⟨-, hg⟩
  · rw [hk]; exact hp
  · unfold isGroup at hg
    split at hg
    · next c hc => rw [hc]; exact Kind.genuine_group c
    · exact absurd hg Bool.false_ne_true

end Parameter

/-- A text without languages. -/
theorem Text.Readable.of_plain {n : Nat} {t : Text} (hempty : t.languages.isEmpty = true) (h : t.content.length ≤ n) :
    t.Readable n := by
  have hnone : ∀ {c s : Bytes}, t.languages[c]? ≠ some s := by
    intro c s hs
    rw [Std.ExtTreeMap.isEmpty_iff.mp hempty] at hs
    simp at hs
  exact ⟨fun _ => h, fun hs => absurd hs hnone, fun hs => absurd hs hnone⟩

/-- A parameter without a pending change is sent as it is. -/
theorem Parameter.sendable_of_unchanged {p : Parameter} (h : p.Unchanged) (hp : p.Readable)
    (hdata : p.userdata.content = []) (hkind : p.kind.Readable true) : p.Sendable where
  full := by
    have hv : p.kind.changed .value = false := h .value
    unfold onlyValueChanged
    split
    · next s hk =>
      rw [hk] at hv
      rw [show s.changed = false from hv, Bool.and_false]
    · rfl
  kept o hc := by
    rw [h o] at hc
    exact absurd hc Bool.false_ne_true
  readable := hp
  userdata := hdata
  kind := hkind

/-! ### What the server holds -/

namespace Store

variable {s t : Store} {r x g : Ref} {l : List Ref} {q : Parameter}

/-- The parameters that are held have kinds that the server creates. -/
def Genuine (s : Store) : Prop := ∀ (id : Id) (r : Ref), s.params[id]? = some r → (s.heap r).kind.Genuine

/-- What is held comes from what was held, and has kept its type. -/
private theorem Genuine.of_params (hs : Genuine s)
    (hp : ∀ (id : Id) (r : Ref), t.params[id]? = some r → s.params[id]? = some r)
    (hk : ∀ (id : Id) (r : Ref), s.params[id]? = some r → (s.heap r).kind.Genuine → (t.heap r).kind.Genuine) :
    Genuine t :=
  fun id r h => hk id r (hp id r h) (hs id r (hp id r h))

private theorem genuine_rehung (hs : Genuine s) (h : Rehung s t) (hp : t.params = s.params) : Genuine t :=
  hs.of_params (fun _ _ h => by rwa [hp] at h) fun _ r _ hg => (h r).genuine hg

private theorem genuine_put (hs : Genuine s) (hq : (s.heap r).kind.Genuine → q.kind.Genuine) : Genuine (s.put r q) := by
  refine hs.of_params (fun _ _ h => h) fun _ x _ hg => ?_
  unfold put
  dsimp only
  split
  · next hx => exact hq (hx ▸ hg)
  · exact hg

theorem rehung_unlink (s : Store) (r : Ref) : Rehung s (s.unlink r) := by
  intro x
  unfold unlink leaveParent
  dsimp only
  split
  · exact rehung_removeChild { s with ids := s.ids.erase (s.idOf r) } _ r x
  · exact .refl _

theorem genuine_create (hs : Genuine s) {mem : Memory} {f : CreateFunction} {label : Bytes}
    (hc : s.create mem f label g = some (r, t)) : Genuine t := by
  obtain ⟨id, hid⟩ := exists_nextId hc
  obtain ⟨rfl, hb⟩ := born_of_create hid hc
  rw [create, hid] at hc
  obtain ⟨-, ht⟩ := Prod.mk.inj (Option.some.inj hc)
  set u := ({ s with ids := insert id s.ids, next := s.next + 1 } : Store).put s.next (.create mem id f.type) with hu
  set v := ((u.modify s.next fun p => { p with managed := true }).set s.next (.label (.set label))).setDirty
    s.next with hv
  have hrehung : Rehung v (v.addChild g s.next) := rehung_addChild v g s.next
  have hvx : ∀ x, (v.heap x).kind = if x = s.next then Kind.make mem f.type else (s.heap x).kind := by
    intro x
    rw [hv, heap_setDirty, heap_set]
    by_cases hx : x = s.next
    · subst hx
      rw [if_pos rfl, if_pos rfl, hu]
      simp only [modify, put, if_true]
      rfl
    · simp [hx, hu, modify, put]
  intro i x hx
  have hheap : t.heap x = (v.addChild g s.next).heap x := by rw [← ht]; rfl
  rw [hheap]
  refine (hrehung x).genuine ?_
  rw [hvx]
  split
  · exact Kind.genuine_make mem f
  · next hxn =>
    rw [hb.params, getElem?_insert_iff] at hx
    split at hx
    · exact absurd (Option.some.inj hx).symm hxn
    · exact hs i x hx

private theorem genuine_parse (hs : Genuine s) (ha : s.Allocated) (ch : Chance) (data : Bytes) :
    Genuine (s.parse ch data).state := by
  rcases (parse_cases ha ch data).2 with ⟨h, -⟩ | ⟨c, time, p, q, -, -, -, h⟩
  · rw [h]; exact hs
  · refine hs.of_params (fun _ _ hx => by rwa [h.params] at hx) fun _ x hx hg => ?_
    rw [h.heap x (Nat.ne_of_lt (ha hx))]
    split
    · exact (Parameter.Rehung.modifyChildren _ _).genuine hg
    · exact hg

/-- Every operation keeps the types, whatever is called or received. -/
theorem serverKept_genuine : ServerKept anyHandle fun s => (Booked s ∧ s.Allocated) ∧ Genuine s := by
  have hb := serverKept_booked
  refine ⟨⟨fun _ => Iff.rfl, fun _ _ => trivial, fun _ _ => trivial, fun _ _ => trivial,
    fun {s r} a hs hr => ⟨hb.set a hs.1 hr, ?_⟩, fun {s g r} hs hg hr => ⟨hb.addChild hs.1 hg hr, ?_⟩,
    fun {s g r} hs hg hr => ⟨hb.removeChild hs.1 hg hr, ?_⟩, fun {s r} hs hr => ⟨hb.unlink hs.1 hr, ?_⟩,
    fun {s} r all hs => ⟨hb.written r all hs.1, ?_⟩, fun hs => ⟨hb.sent hs.1, hs.2⟩, fun hs => ⟨hb.cleared hs.1, ?_⟩,
    fun ch data hs => ⟨hb.parsed ch data hs.1, genuine_parse hs.2 hs.1.2 ch data⟩⟩,
    fun hs hg hc => ⟨hb.created hs.1 hg hc, genuine_create hs.2 hc⟩,
    fun hs hr => ⟨hb.retired hs.1 hr, hs.2⟩, fun hs => ⟨hb.removesSent hs.1, hs.2⟩⟩
  · refine hs.2.of_params (fun _ _ h => by rwa [params_set] at h) fun _ x _ hg => ?_
    rw [heap_set]
    split
    · next hx => exact Parameter.genuine_apply (hx ▸ hg) a
    · exact hg
  · exact genuine_rehung hs.2 (rehung_addChild s g r) (params_addChild s g r)
  · exact genuine_rehung hs.2 (rehung_removeChild s g r) (params_removeChild s g r)
  · refine hs.2.of_params (fun _ _ h => ?_) fun _ x _ hg => (rehung_unlink s r x).genuine hg
    rw [getElem?_params_unlink] at h
    split at h
    · simp at h
    · exact h
  · exact genuine_put hs.2 fun hg => Parameter.genuine_write hg _ _
  · exact fun id r h => by simp [clear] at h

end Store

/-! ### The tree -/

namespace Store

variable {s t : Store} {r x g c : Ref} {l : List Ref} {q : Parameter} {i : Id}

/-- What holds between two operations: the root group is in no group. -/
structure Planted (s : Store) : Prop extends Tied s where
  top : s.parent root = none

theorem PairedBut.congr {id : Id} (hs : PairedBut id s) (h : SameTree s t) : PairedBut id t where
  toCached := hs.toCached.congr h
  parent hi hc hp := by
    rw [h.params] at hc
    rw [h.parent] at hp
    rw [h.children, hs.parent hi hc hp]

section Proxied

variable (h : Proxied s t l q)

include h

/-- What a parse leaves of the children of a parent, other than the child that its packet names. -/
private theorem child_of_proxied (hs : Paired s) (hi : i = q.parameterId → ∀ g ∈ l, q.parameterId ∉ s.children g)
    (hc : t.params[i]? = some c) (hp : t.parent c = some g) : (t.children g)[i]? = some c := by
  rw [h.params] at hc
  rw [h.parent_eq (Nat.ne_of_lt (hs.built hc))] at hp
  have hch := hs.parent hc hp
  rw [h.getElem?_children (Nat.ne_of_lt (hs.child hch).2.2), if_neg, hch]
  rintro ⟨hg, rfl⟩
  exact hi rfl g hg (mem_of_getElem? hch)

theorem Proxied.paired (hs : Paired s) (hno : ∀ g ∈ l, q.parameterId ∉ s.children g) : Paired t :=
  ⟨h.cached hs.toCached, child_of_proxied h hs fun _ => hno⟩

theorem Proxied.pairedBut (hs : Paired s) : PairedBut q.parameterId t :=
  ⟨h.cached hs.toCached, fun hi => child_of_proxied h hs fun hq => absurd hq hi⟩

theorem Proxied.anchored (hs : Tied s) : Anchored t := by
  have hne : ∀ {y : Ref}, s.Held y → y ≠ s.next := fun hy => Nat.ne_of_lt (hs.held_lt hy)
  refine ⟨(h.idOf (hne (Or.inl rfl))).trans hs.rootId, fun {c g} hc hp => ?_⟩
  rw [h.live hs.toCached] at hc
  rw [h.parent_eq (hne (Or.inr hc))] at hp
  exact (h.held hs.toCached).mpr (hs.held hc hp)

theorem Proxied.top (hs : Planted s) : t.parent root = none := (h.parent_eq (Nat.ne_of_lt hs.base)).trans hs.top

theorem Proxied.base (hs : Tied s) : root < t.next := by
  rw [h.next]
  exact Nat.lt_succ_of_lt hs.base

/-- An accepted update puts its parameter back into the group that it names last. -/
theorem planted_applyUpdate (hs : Planted s) (hb : Booked (Server.applyUpdate s.next t)) :
    Planted (Server.applyUpdate s.next t) := by
  have hanchored := h.anchored hs.toTied
  have hbut := h.pairedBut hs.toPaired
  revert hb
  unfold Server.applyUpdate
  rw [h.idOf_proxy, h.params]
  cases hx : s.params[q.parameterId]? with
  | none =>
    have hpaired : Paired t := by
      refine h.paired hs.toPaired fun g _ hm => ?_
      obtain ⟨c, hc⟩ := mem_iff_exists.mp hm
      rw [(hs.child hc).1] at hx
      simp at hx
    exact fun hb => ⟨⟨hpaired, hanchored, h.base hs.toTied, hb⟩, h.top hs⟩
  | some x =>
    have hxt : t.params[q.parameterId]? = some x := by rw [h.params, hx]
    have hid : t.idOf x = q.parameterId := hbut.idOf hxt
    have hxl : t.Live x := hbut.live hxt
    have hxroot : root ≠ x := fun h0 => hs.idOf_ne_zero (hs.live hx) (by rw [← h0, hs.rootId])
    have hne : s.next ≠ x := Ne.symm (Nat.ne_of_lt (hs.built hx))
    dsimp only
    rw [if_pos (hbut.valid hxt)]
    intro hb
    obtain ⟨u, v, hu, hv, hw⟩ := update_cases hne (by rw [h.idOf_proxy, hid])
    have hframe := (touched_update t x s.next).frame
    have hbase : root < (t.update x s.next).1.next := by
      rw [hframe.next]
      exact h.base hs.toTied
    have hlive : ∀ y, (t.update x s.next).1.Live y ↔ t.Live y := fun y => by
      rw [Live, Live, (touched_update t x s.next).params, hframe.idOf]
    rw [h.parent_proxy] at hv
    cases hp : q.parent with
    | none =>
      have hst : SameTree t (t.update x s.next).1 := by
        rw [hp] at hv
        subst hv
        exact hu.sameTree.trans hw.sameTree
      have hpaired : Paired t := h.paired hs.toPaired (by simp [h.stayed hp])
      exact ⟨⟨hpaired.congr hst, hanchored.congr hst, hbase, hb⟩, (hst.parent root).trans (h.top hs)⟩
    | some g =>
      obtain ⟨⟨j, hj⟩, hgroup⟩ := (h.parent g hp).params
      have hgl : s.Live g := hs.live hj
      have hgn : g < t.next := by
        rw [h.next]
        exact Nat.lt_succ_of_lt (hs.built hj)
      have hgt : (t.heap g).isGroup = true :=
        (congrArg Shape.isGroup (h.shape (Nat.ne_of_lt (hs.built hj)))).trans hgroup
      have hh : t.Held g := (h.held hs.toCached).mpr (Or.inr hgl)
      have hu' := hu.sameTree
      rw [hp] at hv
      obtain ⟨hpaired, hparent⟩ := paired_addChild (by rw [hu'.idOf, hid]; exact hbut.congr hu') (hanchored.congr hu')
        (hu'.live.mpr hxl) ((hu'.isGroup g).trans hgt) (by rw [hu'.next]; exact hgn) ((or_congr_right hu'.live).mpr hh)
      subst hv
      have hst := hw.sameTree
      refine ⟨⟨hpaired.congr hst, ⟨?_, fun {c g'} hc hq => ?_⟩, hbase, hb⟩, ?_⟩
      · rw [hframe.idOf]
        exact hanchored.rootId
      · rw [hst.parent, hparent, hu'.parent] at hq
        refine (or_congr_right (hlive g')).mpr ?_
        split at hq
        · rw [← Option.some.inj hq]
          exact hh
        · exact hanchored.held ((hlive c).mp hc) hq
      · rw [hst.parent, hparent, if_neg hxroot, hu'.parent]
        exact h.top hs

end Proxied

end Store

/-! ### Runs -/

namespace Server

open Store

variable {s : Server}

/-- Calls on what the server holds, and packets.  One that is not accepted does not name two parents one after the other
while the first one has a child under the id of the packet. -/
def Orderly (s : Server) : ServerOp → Prop
  | .call (.receive _ ch data) => (s.store.dryParse ch data).verdict ≠ .accepted →
    ∀ q ∈ (s.store.dryParse ch data).packet.bind Packet.parameter, ∀ g ∈ (s.store.dryParse ch data).state,
      q.parameterId ∉ s.store.children g
  | op => s.WorksOnHeld op

theorem planted_received (hs : Planted s.store) (depth : Nat) (ch : Chance) (data : Bytes)
    (hop : s.Orderly (.call (.receive depth ch data))) (hb : (s.received depth ch data).server.store.Booked) :
    Planted (s.received depth ch data).server.store := by
  by_cases hi : IsInit data
  · rw [received_of_init hi] at hb ⊢
    split at hb
    · next hv =>
      rw [if_pos hv]
      dsimp only at hb ⊢
      rw [sendAll_eq] at hb ⊢
      have hst : SameTree s.store _ := sameTree_writeFull (s.store.visited depth) s.store
      exact ⟨hs.congr hst hb, (hst.parent root).trans hs.top⟩
    · next hv =>
      rw [if_neg hv]
      exact hs
  obtain ⟨hv, h⟩ := parse_cases hs.built ch data
  rcases h with ⟨hst, -, -, hp⟩ | ⟨c, time, p, q, hpk, hqk, -, h⟩
  · rw [(received_of_no_parameter hi fun _ => hp).1]
    show Planted (s.store.parse ch data).state
    rw [hst]
    exact hs
  · by_cases ha : (s.store.parse ch data).verdict = .accepted
    · rw [received_of_parameter ha (p := p) (by rw [hpk]; rfl)] at hb ⊢
      exact planted_applyUpdate h hs hb
    · rw [(received_of_no_parameter hi fun hacc => absurd hacc ha).1] at hb ⊢
      have hno := hop (by rwa [← hv]) q (by rw [hqk]; rfl)
      exact ⟨⟨h.paired hs.toPaired hno, h.anchored hs.toTied, h.base hs.toTied, hb⟩, h.top hs⟩

private theorem top_operate (s : Server) (op : ServerOp) (hop : s.WorksOnHeld op) (hs : Planted s.store) :
    (s.operate op).store.parent root = none := by
  have hlive : ∀ {x : Ref}, s.store.Live x → root ≠ x := fun hx h0 =>
    hs.idOf_ne_zero hx (by rw [← h0, hs.rootId])
  cases op with
  | clear => exact hop.elim
  | removeChild g x =>
    show (s.store.removeChild g x).parent root = none
    rw [parent_removeChild, if_neg fun h => hlive hop.2.2 h.1]
    exact hs.top
  | addTransporter t =>
    rw [operate, addTransporter]
    split <;> exact hs.top
  | removeTransporter t => exact hs.top
  | call c =>
    cases c with
    | create mem f label g =>
      show (s.call (.create mem f label g)).store.parent root = none
      rw [Server.call]
      split
      · next r t hc =>
        obtain ⟨id, hid⟩ := exists_nextId hc
        obtain ⟨rfl, hb⟩ := born_of_create hid hc
        rw [hb.parent, if_neg (Nat.ne_of_lt hs.base)]
        exact hs.top
      · exact hs.top
    | set r a => exact (parent_set s.store r a root).trans hs.top
    | addChild g x =>
      have hpar := (paired_addChild (hs.toPaired.but _) hs.toAnchored hop.2.2 hop.1 (hs.held_lt hop.2.1) hop.2.1).2
      exact (hpar root).trans ((if_neg (hlive hop.2.2)).trans hs.top)
    | removeParameter id =>
      show (s.store.removeParameter id).parent root = none
      unfold removeParameter
      split
      · exact hs.top
      split
      · exact hs.top
      refine removeParameterDirect_invariant (P := fun t => t.parent root = none) (Q := fun _ => True)
        (fun ht _ _ => ?_) (fun _ _ _ _ => trivial) _ hs.top trivial
      rw [Option.eq_none_iff_forall_ne_some] at ht ⊢
      exact fun g hg => ht g (parent_of_unlink hg)
    | update => exact ((sameTree_update s).parent root).trans hs.top
    | receive => exact hop.elim

theorem planted_operate (s : Server) (op : ServerOp) (hop : s.Orderly op) (hs : Planted s.store) :
    Planted (s.operate op).store := by
  have hworks : s.WorksOnHeld op → Planted (s.operate op).store := fun hw =>
    ⟨tied_operate s op hw hs.toTied, top_operate s op hw hs⟩
  cases op with
  | call c =>
    cases c with
    | receive depth ch data =>
      exact planted_received hs depth ch data hop
        (serverKept_booked.received depth ch data ⟨hs.booked, hs.built⟩).1
    | _ => exact hworks hop
  | _ => exact hworks hop

/-- With the bound `n` on the depth an accepted `INITIALIZE` is answered to the end, and a client without parameters that
processes the answer has rebuilt the tree. -/
def Rebuilds (n : Nat) (s : Server) : Prop :=
  ∀ ch data, IsInit data → (s.store.parse ch data).verdict = .accepted →
    (s.received n ch data).ended = true ∧
      ∀ (c : Client) (ms : List (Chance × Message)), c.store.params = ∅ →
        ms.map Prod.snd = (s.received n ch data).replies → Rebuilt s.store (c.process ms).store

/-- After every run of calls on what the server holds and of packets that leave its tree paired, the answer to
`INITIALIZE` lets a client without parameters rebuild the tree below the root group, whatever it was before.  The
parameters of the tree are such that they are sent as they are. -/
theorem rebuilt_run (mem : Memory) (ts : List Nat) (ops : List ServerOp)
    (h : Along operate Orderly (start mem ts) ops)
    (hp : ∀ r, (run operate (start mem ts) ops).store.InTree r →
      ((run operate (start mem ts) ops).store.heap r).Sendable) :
    ∃ n₀, ∀ n, n₀ ≤ n → (run operate (start mem ts) ops).Rebuilds n := by
  have hparams : (start mem ts).store.params = ∅ := by
    rw [store_start]
    simp [new, Store.empty]
  have hstart : Planted (start mem ts).store := by
    rw [store_start]
    exact ⟨tied_new mem, parent_set (Store.empty mem) root (.label (.set rootLabel)) root⟩
  have hplanted : Planted (run operate (start mem ts) ops).store :=
    along_invariant (I := fun s => Planted s.store) planted_operate h hstart
  have hgenuine : Genuine (run operate (start mem ts) ops).store := by
    refine (serverKept_genuine.run ops (along_of_forall fun s op => op.handles_any s)
      ⟨⟨hstart.booked, hstart.built⟩, fun id r hr => ?_⟩).2
    rw [hparams] at hr
    simp at hr
  set s := run operate (start mem ts) ops with hs
  obtain ⟨n₀, hn₀⟩ := rebuilt_of_tied hplanted.toTied hplanted.top fun r hr =>
    ⟨hp r hr, hgenuine _ r (hr.live hplanted.toTied)⟩
  refine ⟨n₀, fun n hn ch data hi hv => ?_⟩
  rw [received_of_init hi, if_pos hv]
  exact hn₀ n hn

/-- An `update()` with a change of a value, and a client that moves the parameter into a group. -/
def regrouped : List ServerOp :=
  [.call (.create {} .createGroupParameter [97] root), .call (.create {} .createInt8Parameter [98] root),
    .call (.set 2 (@Setter.setValue (.number .int8) (7 : BitVec 8))), .addTransporter 0, .call .update,
    .call (.receive 0 ⟨{}, fun _ => 0⟩ [4, 18, 0, 2, 17, 0, 37, 0, 1, 0, 0]), .call .update]

private theorem inTree_regrouped (r : Ref) (hr : (run operate (start {} []) regrouped).store.InTree r) :
    r = 1 ∨ r = 2 := by
  obtain ⟨hroot, hb⟩ := hr
  have h : r = root ∨ r = 1 ∨ r = 2 := by
    clear hroot
    induction hb with
    | refl => exact Or.inl rfl
    | tail _ hc ih =>
      have hroot : (run operate (start {} []) regrouped).store.childRefs root = [1] := by decide
      have h1 : (run operate (start {} []) regrouped).store.childRefs 1 = [2] := by decide
      have h2 : (run operate (start {} []) regrouped).store.childRefs 2 = [] := by decide
      rcases ih with rfl | rfl | rfl
      all_goals simp_all
  exact h.resolve_left hroot

private theorem sendable_regrouped (r : Ref) (hr : (run operate (start {} []) regrouped).store.InTree r) :
    ((run operate (start {} []) regrouped).store.heap r).Sendable := by
  rcases inTree_regrouped r hr with rfl | rfl
  · refine Parameter.sendable_of_unchanged (fun o => ?_) ⟨.of_plain (by decide) (by decide),
      .of_plain (by decide) (by decide),
      by decide, by decide⟩ (by decide) trivial
    cases o <;> rfl
  · refine Parameter.sendable_of_unchanged (fun o => ?_) ⟨.of_plain (by decide) (by decide),
      .of_plain (by decide) (by decide),
      by decide, by decide⟩ (by decide) ⟨fun s hs => ?_, fun _ _ => trivial⟩
    · cases o <;> first | rfl | (next o => cases o <;> rfl)
    · exact absurd hs (Option.not_mem_none s)

theorem rebuilt_run_regrouped : ∃ n₀, ∀ n, n₀ ≤ n → (run operate (start {} []) regrouped).Rebuilds n :=
  rebuilt_run {} [] regrouped ⟨⟨by decide, Or.inl rfl⟩, ⟨by decide, Or.inl rfl⟩, trivial, trivial, trivial,
    fun hv => absurd (by decide) hv, trivial, trivial⟩ sendable_regrouped

end Server

end RabbitControl

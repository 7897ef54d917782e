import RabbitControl.AnyOrder
import RabbitControl.Initialize
import RabbitControl.OptionRoundTrip
import RabbitControl.PacketRoundTrip
import RabbitControl.Pairing
import RabbitControl.Removal
import RabbitControl.ShortForm

/-!
# The tree rebuilt

What a client without parameters makes of the answer to `INITIALIZE`.  A parameter that is written in full is read as a
copy of it (`Parameter.Sendable.exists_copy`); a client that takes it over hangs it below the group that is known under
the id of its parent (`Store.adopted_addParameter`).  The answer names every group before its children, so a client that
has read it holds a copy of the tree below the root group (`Server.rebuilt_of_tied`).
-/

namespace RabbitControl

open Lib

/-! ### Parameters -/

theorem Parameter.children_modifyChildren {p : Parameter} (hp : p.isGroup = true)
    (f : Std.ExtTreeMap Int16 Ref → Std.ExtTreeMap Int16 Ref) : (p.modifyChildren f).children = f p.children := by
  unfold isGroup at hp
  unfold modifyChildren
  split
  · next c hk => simp [children, hk]
  · next hk =>
    split at hp
    · next c hc => exact absurd hc (hk c)
    · exact absurd hp Bool.false_ne_true

/-- The kinds agree in their type, in their value and in every option of their type definition; the children of groups
are left out. -/
inductive Kind.CopyOf : Kind → Kind → Prop
  | value {τ : ValueType} {d d' : TypeDefinition τ} {v v' : Slot τ.Val}
      (definition : d.Returned (List.take 4294967295) true d') (value : v'.get? = v.get?) :
      CopyOf (.value τ d v) (.value τ d' v')
  | bang : CopyOf .bang .bang
  | group {c c' : Std.ExtTreeMap Int16 Ref} : CopyOf (.group c) (.group c')

/-- `q` shows the id, the type, the value and the options of `p`; `named` is the group that a parent is known as.  The
readonly flag may be made up if `p` has none. -/
structure Parameter.CopyOf (named : Ref → Option Ref) (p q : Parameter) : Prop where
  id : q.parameterId = p.parameterId
  kind : p.kind.CopyOf q.kind
  label : q.label.get? = p.label.get?
  description : q.description.get? = p.description.get?
  tags : q.tags.get? = p.tags.get?
  order : q.order.get? = p.order.get?
  parent : q.parent = p.parent.bind named
  userid : q.userid.get? = p.userid.get?
  readonly : p.readonly.has = true → q.readonly.get? = p.readonly.get?

/-- The kinds of the parameters that a server creates: they can be read, and a neutral value is zero. -/
def Kind.Genuine (k : Kind) : Prop :=
  k.type.readsBack = true ∧ ∀ {τ : ValueType} {d : TypeDefinition τ} {v : Slot τ.Val}, k = .value τ d v → d.ZeroBlank

/-- A parameter that is sent as it is: not only its value is pending, no option that was cleared is, it has no user
data, and its strings are short enough to be read. -/
structure Parameter.Sendable (p : Parameter) : Prop where
  full : p.onlyValueChanged = false
  kept : ∀ o, p.changed o = true → (p.observe o).isSome = true
  readable : p.Readable
  userdata : p.userdata.content = []
  kind : p.kind.Readable true

theorem Kind.CopyOf.isGroup {p q : Parameter} (h : p.kind.CopyOf q.kind) : q.isGroup = p.isGroup := by
  unfold Parameter.isGroup
  generalize p.kind = k at h
  generalize q.kind = k' at h
  cases h <;> rfl

theorem Kind.CopyOf.type {k k' : Kind} (h : k.CopyOf k') : k'.type = k.type := by cases h <;> rfl

/-- The copy of a group may get other children. -/
theorem Kind.CopyOf.modifyChildren {k : Kind} {q : Parameter} (h : k.CopyOf q.kind)
    (f : Std.ExtTreeMap Int16 Ref → Std.ExtTreeMap Int16 Ref) : k.CopyOf (q.modifyChildren f).kind := by
  unfold Parameter.modifyChildren
  split
  · next c hc =>
    rw [hc] at h
    cases h
    exact .group
  · exact h

theorem Parameter.CopyOf.modifyChildren {named : Ref → Option Ref} {p q : Parameter} (h : p.CopyOf named q)
    (f : Std.ExtTreeMap Int16 Ref → Std.ExtTreeMap Int16 Ref) : p.CopyOf named (q.modifyChildren f) := by
  have hkind := h.kind.modifyChildren f
  unfold Parameter.modifyChildren at hkind ⊢
  split at hkind
  · exact { h with kind := hkind }
  · exact h

/-- A parent may be known as another group only if it has a copy elsewhere. -/
theorem Parameter.CopyOf.congr {named named' : Ref → Option Ref} {p q : Parameter} (h : p.CopyOf named q)
    (hnamed : ∀ g, p.parent = some g → named' g = named g) : p.CopyOf named' q := by
  refine { h with parent := h.parent.trans ?_ }
  cases hp : p.parent with
  | none => rfl
  | some g => exact (hnamed g hp).symm

section Copy

variable {p : Parameter}

/-- What is sent for a slot that was not cleared since is what it shows. -/
theorem Slot.sent_kept {α : Type} {s : Slot α} (h : s.changed = true → s.has = true) (neutral : α) :
    s.sent true neutral = s.get? := by
  cases hc : s.changed with
  | false => exact sent_unchanged hc neutral
  | true => simp [sent, get?, h hc]

/-- What is read for a kind of which no cleared value is pending is a copy of it. -/
theorem Kind.Received.copyOf {k k' : Kind} {mem : Memory} (h : Kind.Received mem true k k') (hk : k.Genuine)
    (hkept : k.changed .value = true → (k.observe .value).isSome = true) : k.CopyOf k' := by
  cases h with
  | @value τ d d' v hd =>
    have hv : v.changed = true → v.has = true := fun hc => by simpa [Kind.observe] using hkept hc
    refine .value (hd (hk.2 rfl)) ?_
    rw [Slot.get?_receive rfl, Slot.sent_kept hv]
  | bang => exact .bang
  | group => exact .group

/-- A group is read without children. -/
theorem Kind.Received.empty {k k' : Kind} {mem : Memory} {all : Bool} (h : Kind.Received mem all k k')
    {c : Std.ExtTreeMap Int16 Ref} (hc : k' = .group c) : c = ∅ := by
  cases h with
  | value => simp at hc
  | bang => simp at hc
  | group => injection hc with hc; exact hc.symm

/-- The parent of a parameter that was not taken out of its group since is sent. -/
theorem Parameter.Sendable.sentParent (hp : p.Sendable) (idOf : Ref → Id) :
    p.sentParent idOf true = p.parent.map idOf := by
  have hkept : p.parentChanged = true → (p.parent.map Content.parent).isSome = true := hp.kept .parentId
  unfold Parameter.sentParent
  cases hparent : p.parent with
  | none =>
    have hchanged : p.parentChanged = false := Bool.eq_false_iff.mpr fun hc => by simpa [hparent] using hkept hc
    simp [hchanged]
  | some g => rfl

/-- What a reader makes of the options of a parameter. -/
theorem Parameter.Sendable.copyOf (hp : p.Sendable) {named : Ref → Option Ref} {mem : Memory} {k : Kind}
    (hk : p.kind.CopyOf k) :
    p.CopyOf named (p.receiveOptions true (p.parent.bind named) (.proxy mem p.parameterId k)) where
  id := rfl
  kind := hk
  label := Text.get?_receive hp.readable.label
  description := Text.get?_receive hp.readable.description
  tags := (Slot.get?_receive rfl _).trans (Slot.sent_kept (fun h => by simpa [observe] using hp.kept .tags h) _)
  order := (Slot.get?_receive rfl _).trans (Slot.sent_kept (fun h => by simpa [observe] using hp.kept .order h) _)
  parent := rfl
  userid := (Slot.get?_receive rfl _).trans (Slot.sent_kept (fun h => by simpa [observe] using hp.kept .userid h) _)
  readonly hhas := by
    have hsent : p.readonly.sent true false = some p.readonly.content := by simp [Slot.sent, hhas]
    have hget : p.readonly.get? = some p.readonly.content := by rw [Slot.get?, if_pos hhas]
    rw [hget]
    show (Slot.receive (p.readonly.sent true false) _).get? = _
    rw [hsent]
    rfl

/-- A parameter that is written in full is read as a copy of it. -/
theorem Parameter.Sendable.exists_copy (hp : p.Sendable) (hg : p.kind.Genuine) (idOf : Ref → Id) (mem : Memory) :
    ∃ k, p.kind.CopyOf k ∧ (∀ c, k = .group c → c = ∅) ∧
      ∀ (σ : Type) (env : ParseEnv σ) (x : σ) tail junk,
        parseParameter env mem x { rest := (p.write idOf true).1.bytes ++ tail, junk := junk } =
          .done (x, some (p.receiveOptions true (namedGroup env x (p.parent.map idOf)) (.proxy mem p.parameterId k)))
            { rest := tail, junk := junk } := by
  obtain ⟨k, hk, hread⟩ := parseParameter_write hp.readable hp.userdata hg.1 hp.kind idOf mem
  have hwrite : p.write idOf true = p.writeFull idOf true := Parameter.write_of_not_onlyValueChanged true hp.full
  rw [hp.sentParent] at hread
  refine ⟨k, hk.copyOf hg (hp.kept .value), fun c hc => hk.empty hc, fun σ env x tail junk => ?_⟩
  rw [hwrite]
  exact hread σ env x tail junk

end Copy

/-! ### Packets -/

namespace Store

variable {s t : Store} {r x g y : Ref} {l : List Ref} {c : Store} {ch : Chance}

/-- The packet of a full transmission is read as a copy of its parameter, by whatever store. -/
theorem parse_packetFull (hp : (s.heap r).Sendable) (hg : (s.heap r).kind.Genuine) (c : Store) (ch : Chance) :
    ∃ q, (s.heap r).CopyOf (fun g => c.named (s.idOf g)) q ∧ q.children = ∅ ∧
      c.parse ch (s.packetFull r).bytes =
        ⟨c.withProxy q, some { command := .update, data := some (.parameter q) }, .accepted⟩ := by
  obtain ⟨k, hk, hempty, hread⟩ := hp.exists_copy hg s.idOf ch.mem
  have hnamed : namedGroup storeEnv c ((s.heap r).parent.map s.idOf) =
      (s.heap r).parent.bind fun g => c.named (s.idOf g) := by
    cases (s.heap r).parent <;> rfl
  set q := (s.heap r).receiveOptions true ((s.heap r).parent.bind fun g => c.named (s.idOf g))
    (.proxy ch.mem (s.heap r).parameterId k) with hq
  have hparameter : parseParameter storeEnv ch.mem c
      { rest := ((s.heap r).write s.idOf true).1.bytes ++ [0], junk := ch.junk } =
        .done (c, some q) { rest := [0], junk := ch.junk } := by
    rw [hread, hnamed]
  have hpacket : readPacket storeEnv ch.mem c (stream ch.junk (s.packetFull r).bytes) = _ :=
    readPacket_update hparameter
  have hstate : (readPacket storeEnv ch.mem c (stream ch.junk (s.packetFull r).bytes)).state = _ := state_readPacket _
  rw [hpacket] at hstate
  refine ⟨q, hp.copyOf hk, ?_, ?_⟩
  · show Parameter.children q = ∅
    unfold Parameter.children
    split
    · next c' hc' => exact hempty c' hc'
    · rfl
  · rw [Store.parse, ← hstate]
    rfl

/-! ### Taking a copy over -/

/-- A parsed parameter is looked up by its id. -/
theorem idOf_withProxy (c : Store) (q : Parameter) : (c.withProxy q).idOf c.next = q.parameterId := by
  simp [idOf, withProxy, put]

theorem params_withProxy (c : Store) (q : Parameter) :
    (c.withProxy q).params[(c.withProxy q).idOf c.next]? = c.params[q.parameterId]? := by
  rw [idOf_withProxy]
  rfl

/-- A parsed parameter that is taken over is found under its id, and its group gets it as a child; nothing else
changes. -/
structure Adopted (c : Store) (q : Parameter) (t : Store) : Prop where
  params : t.params = c.params.insert q.parameterId c.next
  next : t.next = c.next + 1
  proxy : t.heap c.next = { q with managed := true }
  heap : ∀ y, y ≠ c.next → t.heap y =
    if q.parent = some y then (c.heap y).modifyChildren (·.insert q.parameterId c.next) else c.heap y

theorem adopted_addParameter {q : Parameter} (hid : q.parameterId ∉ c.params)
    (hparent : ∀ g, q.parent = some g → g ≠ c.next ∧ q.parameterId ∉ c.children g) :
    Adopted c q ((c.withProxy q).addParameter c.next) := by
  have hproxy : (c.withProxy q).heap c.next = q := if_pos rfl
  have hidOf := idOf_withProxy c q
  rw [addParameter, if_neg (by rw [hidOf]; exact hid)]
  dsimp only
  set u := ({ c.withProxy q with ids := insert ((c.withProxy q).idOf c.next) (c.withProxy q).ids } : Store).modify
    c.next (fun p => { p with managed := true }) with hu
  have hnew : u.heap c.next = { q with managed := true } := by
    simp [hu, modify, put, hproxy]
  have hold : ∀ y, y ≠ c.next → u.heap y = c.heap y := by
    intro y hy
    simp [hu, modify, put, hy, heap_withProxy q hy]
  have huid : u.idOf c.next = q.parameterId := by rw [idOf, hnew]
  rw [hnew]
  cases hp : q.parent with
  | none =>
    refine ⟨?_, rfl, hnew, fun y hy => ?_⟩
    · show u.params.insert (u.idOf c.next) c.next = _
      rw [huid]
      rfl
    · exact (hold y hy).trans (if_neg (by simp [hp])).symm
  | some g =>
    obtain ⟨hg, hchild⟩ := hparent g hp
    have hup : u.parent c.next = some g := by rw [Store.parent, hnew]; exact hp
    have hmem : u.idOf c.next ∉ u.children g := by
      rw [huid, Store.children, hold g hg]
      exact hchild
    have henter : u.addChild g c.next = u.modify g (Parameter.modifyChildren (·.insert q.parameterId c.next)) := by
      rw [addChild_of_same hup rfl, enterChild, if_neg hmem, huid]
    dsimp only
    rw [henter]
    refine ⟨?_, rfl, ?_, fun y hy => ?_⟩
    · show u.params.insert ((u.modify g _).idOf c.next) c.next = _
      rw [idOf, modify, put]
      dsimp only
      rw [if_neg (Ne.symm hg), hnew]
      rfl
    · rw [modify, put]
      dsimp only
      rw [if_neg (Ne.symm hg), hnew]
    · by_cases hyg : y = g
      · refine Eq.trans ?_ (if_pos (by rw [hp, hyg])).symm
        rw [modify, put]
        dsimp only
        rw [if_pos hyg, hyg, hold g hg]
      · refine Eq.trans ?_ (if_neg (by simpa [hp] using Ne.symm hyg)).symm
        rw [modify, put]
        dsimp only
        rw [if_neg hyg, hold y hy]

/-! ### Copies of a tree -/

/-- The store `c` holds copies of the parameters in `l` and nothing else.  A copy lies below the copy of its parent, and
the children of the copy of a group are the copies of those children that are in `l`. -/
structure CopiesOf (s : Store) (l : List Ref) (c : Store) : Prop where
  params : ∀ id : Id, id ∈ c.params ↔ ∃ r ∈ l, s.idOf r = id
  built : ∀ {id : Id} {x : Ref}, c.params[id]? = some x → x < c.next
  copy : ∀ {r x : Ref}, r ∈ l → c.params[s.idOf r]? = some x →
    (s.heap r).CopyOf (fun g => c.params[s.idOf g]?) (c.heap x)
  children : ∀ {g x : Ref}, g ∈ l → c.params[s.idOf g]? = some x → ∀ (i : Id) y,
    (c.children x)[i]? = some y ↔ c.params[i]? = some y ∧ ∃ r ∈ l, s.idOf r = i ∧ s.parent r = some g

theorem copiesOf_nil (h : c.params = ∅) : CopiesOf s [] c := by
  refine ⟨fun id => ?_, fun hx => ?_, fun hr => absurd hr List.not_mem_nil, fun hg => absurd hg List.not_mem_nil⟩
  · simp [h]
  · rw [h] at hx
    simp at hx

/-- A client without the parameter takes over its copy. -/
theorem received_packetFull (hp : (s.heap r).Sendable) (hg : (s.heap r).kind.Genuine) (c : Client) (ch : Chance)
    (hid : s.idOf r ∉ c.store.params)
    (hparent : ∀ g x, s.parent r = some g → c.store.named (s.idOf g) = some x →
      x ≠ c.store.next ∧ s.idOf r ∉ c.store.children x) :
    ∃ q, (s.heap r).CopyOf (fun g => c.store.named (s.idOf g)) q ∧ q.children = ∅ ∧
      Adopted c.store q (c.received ch (s.packetFull r).bytes).1.store := by
  obtain ⟨q, hq, hempty, hparse⟩ := parse_packetFull hp hg c.store ch
  refine ⟨q, hq, hempty, ?_⟩
  have hnone : (c.store.withProxy q).params[(c.store.withProxy q).idOf c.store.next]? = none := by
    rw [params_withProxy, hq.id]
    exact getElem?_eq_none_of_notMem hid
  have hstore : (c.received ch (s.packetFull r).bytes).1.store = (c.store.withProxy q).addParameter c.store.next := by
    rw [Client.received_of_parameter (p := q) (by rw [hparse]) (by rw [hparse]; rfl), hparse]
    dsimp only
    rw [Client.applyUpdate, hnone]
  rw [hstore]
  refine adopted_addParameter (by rw [hq.id]; exact hid) fun x hx => ?_
  rw [hq.id]
  rw [hq.parent] at hx
  obtain ⟨g, hgp, hgx⟩ := Option.bind_eq_some_iff.mp hx
  exact hparent g x hgp hgx

/-- The parameter `r` can be sent after those in `l`. -/
structure Next (s : Store) (l : List Ref) (r : Ref) : Prop where
  fresh : ∀ x ∈ l, s.idOf x ≠ s.idOf r
  valid : s.idOf r ≠ 0
  parent : ∀ g, s.parent r = some g → s.idOf g = 0 ∨ g ∈ l ∧ (s.heap g).isGroup = true

/-- Parameters in an order in which they can be sent: with ids of their own, each after its parent unless that is the
root group. -/
inductive InOrder (s : Store) : List Ref → Prop
  | nil : InOrder s []
  | snoc {l : List Ref} {r : Ref} (before : InOrder s l) (next : Next s l r) : InOrder s (l ++ [r])

theorem InOrder.valid (h : InOrder s l) (hx : x ∈ l) : s.idOf x ≠ 0 := by
  induction h with
  | nil => exact absurd hx List.not_mem_nil
  | snoc _ hr ih =>
    rcases List.mem_append.mp hx with hx | hx
    · exact ih hx
    · rw [List.mem_singleton.mp hx]
      exact hr.valid

/-- What was sent is closed under parents. -/
theorem InOrder.parent (h : InOrder s l) (hx : x ∈ l) (hp : s.parent x = some g) : s.idOf g = 0 ∨ g ∈ l := by
  induction h with
  | nil => exact absurd hx List.not_mem_nil
  | snoc _ hr ih =>
    rcases List.mem_append.mp hx with hx | hx
    · exact (ih hx).imp_right fun h => List.mem_append_left _ h
    · rw [List.mem_singleton.mp hx] at hp
      exact (hr.parent g hp).imp_right fun h => List.mem_append_left _ h.1

theorem InOrder.unique (h : InOrder s l) (hx : x ∈ l) (hy : y ∈ l) (hid : s.idOf x = s.idOf y) : x = y := by
  induction h with
  | nil => exact absurd hx List.not_mem_nil
  | snoc _ hr ih =>
    rcases List.mem_append.mp hx with hx | hx <;> rcases List.mem_append.mp hy with hy | hy
    · exact ih hx hy
    · rw [List.mem_singleton.mp hy] at hid
      exact absurd hid (hr.fresh x hx)
    · rw [List.mem_singleton.mp hx] at hid
      exact absurd hid.symm (hr.fresh y hy)
    · rw [List.mem_singleton.mp hx, List.mem_singleton.mp hy]

namespace CopiesOf

variable (h : CopiesOf s l c)

include h

theorem exists_copy (hr : r ∈ l) : ∃ x, c.params[s.idOf r]? = some x :=
  mem_iff_exists.mp ((h.params _).mpr ⟨r, hr, rfl⟩)

theorem not_mem (hid : ∀ x ∈ l, s.idOf x ≠ s.idOf r) : s.idOf r ∉ c.params := by
  intro hm
  obtain ⟨x, hx, hxr⟩ := (h.params _).mp hm
  exact hid x hx hxr

/-- The id zero is not known. -/
theorem zero (hl : InOrder s l) : c.params[(0 : Id)]? = none := by
  refine getElem?_eq_none_of_notMem fun hm => ?_
  obtain ⟨x, hx, h0⟩ := (h.params 0).mp hm
  exact hl.valid hx h0

/-- A parent is known as its copy. -/
theorem named (hl : InOrder s l) (hg : s.idOf g = 0 ∨ g ∈ l ∧ (s.heap g).isGroup = true) :
    c.named (s.idOf g) = c.params[s.idOf g]? := by
  unfold Store.named getGroup
  rcases hg with h0 | ⟨hgl, hgroup⟩
  · rw [if_pos h0, h0, h.zero hl]
  · rw [if_neg (hl.valid hgl)]
    obtain ⟨x, hx⟩ := h.exists_copy hgl
    rw [hx]
    exact if_pos ((h.copy hgl hx).kind.isGroup.trans hgroup)

end CopiesOf

/-- The store has got a copy of `r`. -/
structure Grown (s : Store) (r : Ref) (c t : Store) : Prop where
  params : ∀ id : Id, t.params[id]? = if id = s.idOf r then some c.next else c.params[id]?
  next : t.next = c.next + 1
  copy : (s.heap r).CopyOf (fun g => c.params[s.idOf g]?) (t.heap c.next)
  childless : t.children c.next = ∅
  heap : ∀ y, y ≠ c.next → t.heap y =
    if ((s.parent r).bind fun g => c.params[s.idOf g]?) = some y then
      (c.heap y).modifyChildren (·.insert (s.idOf r) c.next)
    else c.heap y

/-- What was known before is known as before. -/
theorem Grown.known {t : Store} (ht : Grown s r c t) (hr : Next s l r) (hg : s.idOf g = 0 ∨ g ∈ l) :
    t.params[s.idOf g]? = c.params[s.idOf g]? := by
  rcases hg with h0 | hgl
  · rw [ht.params, if_neg (by rw [h0]; exact Ne.symm hr.valid)]
  · rw [ht.params, if_neg (hr.fresh g hgl)]

section Grow

variable {t : Store} (h : CopiesOf s l c) (hl : InOrder s l) (hr : Next s l r)

include h hl hr

/-- A known parent is a copy of a group that was sent. -/
private theorem mem_of_known (hg : s.parent r = some g) (hx : c.params[s.idOf g]? = some x) : g ∈ l := by
  rcases hr.parent g hg with h0 | hgl
  · rw [h0, h.zero hl] at hx
    simp at hx
  · exact hgl.1

private theorem not_mem_children (hg : s.parent r = some g) (hx : c.params[s.idOf g]? = some x) :
    s.idOf r ∉ c.children x := fun hm => by
  obtain ⟨y, hy⟩ := mem_iff_exists.mp hm
  exact h.not_mem hr.fresh (mem_of_getElem? ((h.children (mem_of_known h hl hr hg hx) hx _ y).mp hy).1)

/-- The group that gets the copy of `r` is the copy of its parent. -/
private theorem parent_iff (hgl : g ∈ l) (hx : c.params[s.idOf g]? = some x) :
    ((s.parent r).bind fun g => c.params[s.idOf g]?) = some x ↔ s.parent r = some g := by
  constructor
  · intro hb
    obtain ⟨g', hg', hgx⟩ := Option.bind_eq_some_iff.mp hb
    have hgl' := mem_of_known h hl hr hg' hgx
    have hids : s.idOf g' = s.idOf g := (h.copy hgl' hgx).id.symm.trans (h.copy hgl hx).id
    rw [hg', hl.unique hgl' hgl hids]
  · intro hg
    rw [hg]
    exact hx

variable (ht : Grown s r c t)

include ht

private theorem getElem?_children_grown (hgl : g ∈ l) (hx : c.params[s.idOf g]? = some x) (i : Id) :
    (t.children x)[i]? = if s.parent r = some g ∧ i = s.idOf r then some c.next else (c.children x)[i]? := by
  rw [Store.children, ht.heap x (Nat.ne_of_lt (h.built hx))]
  by_cases hg : s.parent r = some g
  · have hgroup : (c.heap x).isGroup = true := by
      rw [(h.copy hgl hx).kind.isGroup]
      exact ((hr.parent g hg).resolve_left (hl.valid hgl)).2
    rw [if_pos ((parent_iff h hl hr hgl hx).mpr hg), Parameter.children_modifyChildren hgroup, getElem?_insert_iff]
    simp [hg, Store.children]
  · rw [if_neg fun hq => hg ((parent_iff h hl hr hgl hx).mp hq), if_neg fun hq => hg hq.1]
    rfl

/-- The children of the copy of a group are the copies of its children. -/
private theorem children_grown (hgl : g ∈ l) (hx : c.params[s.idOf g]? = some x) (i : Id) (y : Ref) :
    (t.children x)[i]? = some y ↔
      t.params[i]? = some y ∧ ∃ z ∈ l ++ [r], s.idOf z = i ∧ s.parent z = some g := by
  have hold := h.children hgl hx i y
  rw [getElem?_children_grown h hl hr ht hgl hx, ht.params]
  by_cases hi : i = s.idOf r
  · subst hi
    rw [if_pos rfl]
    have hno : (c.children x)[s.idOf r]? ≠ some y := fun hy =>
      h.not_mem hr.fresh (mem_of_getElem? (hold.mp hy).1)
    simp only [and_true]
    constructor
    · intro hy
      split at hy
      · next hg => exact ⟨hy, r, List.mem_append_right _ (List.mem_singleton.mpr rfl), rfl, hg⟩
      · exact absurd hy hno
    · rintro ⟨hy, z, hz, hzid, hzp⟩
      rcases List.mem_append.mp hz with hz | hz
      · exact absurd hzid (hr.fresh z hz)
      · rw [List.mem_singleton.mp hz] at hzp
        rwa [if_pos hzp]
  · rw [if_neg fun hg => hi hg.2, if_neg hi, hold]
    refine and_congr_right fun _ => ?_
    constructor
    · rintro ⟨z, hz, hzid, hzp⟩
      exact ⟨z, List.mem_append_left _ hz, hzid, hzp⟩
    · rintro ⟨z, hz, hzid, hzp⟩
      rcases List.mem_append.mp hz with hz | hz
      · exact ⟨z, hz, hzid, hzp⟩
      · rw [List.mem_singleton.mp hz] at hzid
        exact absurd hzid.symm hi

/-- With a copy of `r` the store has copies of one parameter more. -/
theorem copiesOf_grown : CopiesOf s (l ++ [r]) t := by
  refine ⟨fun id => ?_, fun {id x} hx => ?_, fun {r' x} hr' hx => ?_, fun {g x} hg' hx i y => ?_⟩
  · have hmem : id ∈ t.params ↔ id = s.idOf r ∨ id ∈ c.params := by
      rw [mem_iff_exists, mem_iff_exists, ht.params]
      by_cases hid : id = s.idOf r <;> simp [hid]
    rw [hmem, h.params]
    constructor
    · rintro (rfl | ⟨x, hx, hxid⟩)
      · exact ⟨r, List.mem_append_right _ (List.mem_singleton.mpr rfl), rfl⟩
      · exact ⟨x, List.mem_append_left _ hx, hxid⟩
    · rintro ⟨x, hx, hxid⟩
      rcases List.mem_append.mp hx with hx | hx
      · exact Or.inr ⟨x, hx, hxid⟩
      · rw [List.mem_singleton.mp hx] at hxid
        exact Or.inl hxid.symm
  · rw [ht.params] at hx
    rw [ht.next]
    split at hx
    · rw [← Option.some.inj hx]; exact Nat.lt_succ_self _
    · exact Nat.lt_succ_of_lt (h.built hx)
  · rcases List.mem_append.mp hr' with hrl | hr'
    · rw [ht.known hr (Or.inr hrl)] at hx
      have hcopy : (s.heap r').CopyOf (fun g => t.params[s.idOf g]?) (c.heap x) :=
        (h.copy hrl hx).congr fun g hg => ht.known hr (hl.parent hrl hg)
      rw [ht.heap x (Nat.ne_of_lt (h.built hx))]
      split
      · exact hcopy.modifyChildren _
      · exact hcopy
    · rw [List.mem_singleton.mp hr'] at hx ⊢
      rw [ht.params, if_pos rfl] at hx
      rw [← Option.some.inj hx]
      exact ht.copy.congr fun g hg => ht.known hr ((hr.parent g hg).imp_right And.left)
  · rcases List.mem_append.mp hg' with hgl | hg'
    · rw [ht.known hr (Or.inr hgl)] at hx
      exact children_grown h hl hr ht hgl hx i y
    · -- nothing that was sent lies below the new parameter
      rw [List.mem_singleton.mp hg'] at hx ⊢
      rw [ht.params, if_pos rfl] at hx
      rw [← Option.some.inj hx, ht.childless]
      refine iff_of_false (by simp) ?_
      rintro ⟨-, z, hz, -, hzp⟩
      have hrl : s.idOf r = 0 ∨ r ∈ l := by
        rcases List.mem_append.mp hz with hz | hz
        · exact hl.parent hz hzp
        · rw [List.mem_singleton.mp hz] at hzp
          exact (hr.parent r hzp).imp_right And.left
      exact hrl.elim hr.valid fun hrl => hr.fresh r hrl rfl

end Grow

/-- A client gets a copy of the parameter that is sent. -/
theorem grown_received {c : Client} (h : CopiesOf s l c.store) (hl : InOrder s l) (hr : Next s l r)
    (hp : (s.heap r).Sendable) (hg : (s.heap r).kind.Genuine) (ch : Chance) :
    Grown s r c.store (c.received ch (s.packetFull r).bytes).1.store := by
  obtain ⟨q, hq, hempty, ha⟩ := received_packetFull hp hg c ch (h.not_mem hr.fresh) fun g x hgp hx => by
    rw [h.named hl (hr.parent g hgp)] at hx
    exact ⟨Nat.ne_of_lt (h.built hx), not_mem_children h hl hr hgp hx⟩
  have hid : q.parameterId = s.idOf r := hq.id
  have hcopy : (s.heap r).CopyOf (fun g => c.store.params[s.idOf g]?) q :=
    hq.congr fun g hgp => (h.named hl (hr.parent g hgp)).symm
  refine ⟨fun id => ?_, ha.next, ?_, ?_, fun y hy => ?_⟩
  · rw [ha.params, getElem?_insert_iff, hid]
  · rw [ha.proxy]
    exact ⟨hcopy.id, hcopy.kind, hcopy.label, hcopy.description, hcopy.tags, hcopy.order, hcopy.parent, hcopy.userid,
      hcopy.readonly⟩
  · rw [Store.children, ha.proxy]
    exact hempty
  · rw [ha.heap y hy, hid, hcopy.parent]
    rfl

/-- The packets of parameters in order make copies of them. -/
theorem copiesOf_process (hl : InOrder s l) (hp : ∀ r ∈ l, (s.heap r).Sendable ∧ (s.heap r).kind.Genuine) {c : Client}
    (hc : c.store.params = ∅) {ms : List (Chance × Message)} (hms : ms.map Prod.snd = l.map s.packetFull) :
    CopiesOf s l (c.process ms).store := by
  induction hl generalizing ms with
  | nil =>
    obtain rfl : ms = [] := by simpa using hms
    exact copiesOf_nil hc
  | @snoc l r hl hr ih =>
    rw [List.map_append] at hms
    obtain ⟨ms', m, rfl, hms', hm⟩ := List.map_eq_append_iff.mp hms
    obtain ⟨ch, rfl⟩ : ∃ ch, m = [(ch, s.packetFull r)] := by
      obtain ⟨⟨ch, m⟩, rfl, rfl⟩ := List.map_eq_singleton_iff.mp hm
      exact ⟨ch, rfl⟩
    have hlast := hp r (List.mem_append_right _ (List.mem_singleton.mpr rfl))
    have hbefore := ih (fun x hx => hp x (List.mem_append_left _ hx)) hms'
    rw [Client.process, List.foldl_append]
    exact copiesOf_grown hbefore hl hr (grown_received hbefore hl hr hlast.1 hlast.2 ch)

/-! ### What lies below the root group -/

def InTree (s : Store) (r : Ref) : Prop := r ≠ root ∧ Below s.childRefs root r

/-- The store `c` holds copies of what lies below the root group of `s`, under the same ids and hung in the same way. -/
structure Rebuilt (s c : Store) : Prop where
  ids : ∀ id : Id, id ∈ c.params ↔ ∃ r, s.InTree r ∧ s.idOf r = id
  copy : ∀ {r x : Ref}, s.InTree r → c.params[s.idOf r]? = some x →
    (s.heap r).CopyOf (fun g => c.params[s.idOf g]?) (c.heap x)
  children : ∀ {g x : Ref}, s.InTree g → c.params[s.idOf g]? = some x → ∀ (i : Id) y,
    (c.children x)[i]? = some y ↔ c.params[i]? = some y ∧ i ∈ s.children g

theorem isTree_of_tied (hs : Tied s) (htop : s.parent root = none) : IsTree s.childRefs s.parent root := by
  refine ⟨htop, fun _ hc => ?_, fun _ => nodup_childRefs hs.toCached _, ?_⟩
  · obtain ⟨i, hi⟩ := mem_childRefs_iff.mp hc
    exact (hs.child hi).2.1
  · refine (Set.finite_lt_nat s.next).subset fun x hx => ?_
    rcases Relation.ReflTransGen.cases_tail hx with rfl | ⟨g, -, hc⟩
    · exact hs.base
    · obtain ⟨i, hi⟩ := mem_childRefs_iff.mp hc
      exact hs.built (hs.child hi).1

theorem InTree.live (hs : Tied s) (hx : s.InTree x) : s.Live x := by
  rcases Relation.ReflTransGen.cases_tail hx.2 with h | ⟨g, -, hc⟩
  · exact absurd h hx.1
  · obtain ⟨i, hi⟩ := mem_childRefs_iff.mp hc
    exact hs.child_live hi

theorem inOrder_of_parentFirst (hs : Tied s) (hnd : l.Nodup) (hlive : ∀ x ∈ l, s.Live x)
    (hfirst : ∀ l₁ x l₂, l = l₁ ++ x :: l₂ → ∃ g, s.parent x = some g ∧ (g = root ∨ g ∈ l₁)) : InOrder s l := by
  induction l using List.reverseRecOn with
  | nil => exact .nil
  | append_singleton l r ih =>
    have hr := hlive r (List.mem_append_right _ (List.mem_singleton.mpr rfl))
    have hl : ∀ x ∈ l, s.Live x := fun x hx => hlive x (List.mem_append_left _ hx)
    obtain ⟨hnd, -, hdisjoint⟩ := List.nodup_append.mp hnd
    refine .snoc (ih hnd hl fun l₁ x l₂ hx => hfirst l₁ x (l₂ ++ [r]) (by rw [hx]; simp)) ⟨fun x hx hid => ?_,
      hs.idOf_ne_zero hr, fun g hg => ?_⟩
    · exact hdisjoint x hx r (List.mem_singleton.mpr rfl) (hr.eq_of_idOf (hl x hx) hid)
    · obtain ⟨g', hg', hbefore⟩ := hfirst l r [] rfl
      obtain rfl : g = g' := Option.some.inj (hg.symm.trans hg')
      rcases hbefore with rfl | hgl
      · exact Or.inl hs.rootId
      · exact Or.inr ⟨hgl, isGroup_of_mem_children (mem_of_getElem? (hs.parent hr hg))⟩

theorem CopiesOf.rebuilt (hs : Tied s) (htop : s.parent root = none) (h : CopiesOf s l c)
    (hl : ∀ x, x ∈ l ↔ s.InTree x) :
    Rebuilt s c := by
  refine ⟨fun id => ?_, fun hr hx => h.copy ((hl _).mpr hr) hx, fun {g x} hg hx i y => ?_⟩
  · rw [h.params]
    simp only [hl]
  · rw [h.children ((hl g).mpr hg) hx]
    refine and_congr_right fun _ => ?_
    constructor
    · rintro ⟨z, hz, rfl, hzp⟩
      exact (hs.toPaired.mem_children_iff (((hl z).mp hz).live hs)).mpr hzp
    · intro hi
      obtain ⟨z, hz⟩ := mem_iff_exists.mp hi
      have hzp := (hs.child hz).2.1
      refine ⟨z, (hl z).mpr ⟨?_, hg.2.tail (mem_childRefs_iff.mpr ⟨i, hz⟩)⟩, hs.idOf (hs.child hz).1, hzp⟩
      rintro rfl
      rw [htop] at hzp
      simp at hzp

end Store

/-! ### The answer to `INITIALIZE` -/

namespace Server

open Store

/-- A client without parameters that reads the answer to `INITIALIZE` has rebuilt the tree. -/
theorem rebuilt_of_tied {s : Store} (hs : Tied s) (htop : s.parent root = none)
    (hp : ∀ r, s.InTree r → (s.heap r).Sendable ∧ (s.heap r).kind.Genuine) :
    ∃ n₀, ∀ n, n₀ ≤ n → (sendAll n s).ended = true ∧
      ∀ (c : Client) (ms : List (Chance × Message)), c.store.params = ∅ → ms.map Prod.snd = (sendAll n s).packets →
        Rebuilt s (c.process ms).store := by
  obtain ⟨n₀, hn₀⟩ := (isTree_of_tied hs htop).exists_traversed
  refine ⟨n₀, fun n hn => ?_⟩
  obtain ⟨l, hl, ht⟩ := hn₀ n hn
  have hmem : ∀ x, x ∈ l ↔ s.InTree x := ht.mem
  have horder := inOrder_of_parentFirst hs ht.nodup (fun x hx => ((hmem x).mp hx).live hs) ht.parentFirst
  rw [sendAll_eq, hl]
  refine ⟨rfl, fun c ms hc hms => ?_⟩
  have hpackets : (s.transmit (l, true)).packets = l.map s.packetFull := packets_writeFull ht.nodup
  rw [hpackets] at hms
  exact (copiesOf_process horder (fun r hr => hp r ((hmem r).mp hr)) hc hms).rebuilt hs htop hmem

end Server

end RabbitControl

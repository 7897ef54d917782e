import RabbitControl.ClientStore
import RabbitControl.Increments

/-!
# A client that is kept up to date

The copies that a client holds trail the parameters of the server: what they show differently is marked as changed,
and the parameter is on the dirty list.  A packet of `update()` takes one parameter off what is still to be sent, since
the packets come in the order of the ids and a group that a client does not know is sent before what lies in it.
-/

namespace RabbitControl

open Lib

namespace Store

variable {s t c : Store} {r x y g : Ref} {i j : Id} {k : List Id} {l l' : List Ref}

/-! ### Packets -/

/-- The parameter has a type that a server creates, and an update of it can be read. -/
structure Ready (p : Parameter) : Prop where
  created : ∃ f : CreateFunction, p.kind.type = f.type
  uncleared : p.Uncleared
  readable : p.Readable
  kind : p.kind.Readable false

theorem readsBack_of_created {p : Parameter} (h : ∃ f : CreateFunction, p.kind.type = f.type) :
    p.kind.type.readsBack = true := by
  obtain ⟨f, hf⟩ := h
  rw [hf]
  cases f <;> rfl

theorem valid_of_created {p : Parameter} (h : ∃ f : CreateFunction, p.kind.type = f.type) (hid : p.parameterId ≠ 0) :
    p.isValid = true := by
  obtain ⟨f, hf⟩ := h
  have hd : p.kind.datatype = (Kind.make {} f.type).datatype :=
    datatype_of_type (hf.trans (type_create {} 0 f.type).symm)
  rw [Parameter.isValid, Parameter.getDatatype, hd, Bool.and_eq_true]
  exact ⟨by cases f <;> rfl, by simpa using hid⟩

/-- What is read without an error is parsed. -/
private theorem parse_of_readPacket {c : Store} {ch : Chance} {data : Bytes} {w : Parameter} {command : Command}
    (h : ∃ is, readPacket storeEnv ch.mem c (stream ch.junk data) =
      .done ⟨c, some { command := command, data := some (.parameter w) }, .accepted⟩ is) :
    c.parse ch data = ⟨c.withProxy w, some { command := command, data := some (.parameter w) }, .accepted⟩ := by
  obtain ⟨is, h⟩ := h
  have hstate : (readPacket storeEnv ch.mem c (stream ch.junk data)).state = _ := state_readPacket _
  rw [h] at hstate
  rw [Store.parse, ← hstate]
  rfl

private theorem parse_short (hp : Ready (s.heap r)) (ho : (s.heap r).onlyValueChanged = true) (c : Store)
    (ch : Chance) :
    ∃ w, (s.heap r).Sent (fun g => c.named (s.idOf g)) w ∧ w.children = ∅ ∧ c.parse ch (s.packet r).bytes =
      ⟨c.withProxy w, some { command := .updateValue, data := some (.parameter w) }, .accepted⟩ := by
  obtain ⟨τ, d, v, hk, hv, -⟩ := Parameter.write_of_onlyValueChanged s.idOf false ho
  have hhas : v.has = true := by
    have h := hp.uncleared.value
    rw [hk] at h
    simpa [Kind.observe] using h hv
  have hfits : τ.Fits v.content := by
    have h := hp.kind
    rw [hk] at h
    exact h.2 _ (by simp [Slot.sent, hv, hhas])
  have hshort : τ.readsShort = true := by
    obtain ⟨f, hf⟩ := hp.created
    rw [hk] at hf
    cases f <;> cases hf <;> rfl
  have hbytes : (s.packet r).bytes = _ := Parameter.bytes_message ho hk s.idOf
  refine ⟨_, Parameter.sent_short ho hk hhas ch.mem _, ?_, parse_of_readPacket ⟨stream ch.junk [], ?_⟩⟩
  · obtain ⟨b, hb⟩ := shortProxy_eq ch.mem (s.heap r).parameterId τ v.content
    rw [hb]
    rfl
  · rw [hbytes, ← List.append_nil (6 :: _)]
    exact readPacket_short hshort hfits _ []

private theorem parse_full (hp : Ready (s.heap r)) (ho : (s.heap r).onlyValueChanged = false) (c : Store)
    (ch : Chance) :
    ∃ w, (s.heap r).Sent (fun g => c.named (s.idOf g)) w ∧ w.children = ∅ ∧ c.parse ch (s.packet r).bytes =
      ⟨c.withProxy w, some { command := .update, data := some (.parameter w) }, .accepted⟩ := by
  obtain ⟨k, hk, hread⟩ := parseParameter_write hp.readable hp.uncleared.userdata (readsBack_of_created hp.created)
    hp.kind s.idOf ch.mem
  have hnamed : namedGroup storeEnv c ((s.heap r).sentParent s.idOf false) =
      if (s.heap r).parentChanged then (s.heap r).parent.bind fun g => c.named (s.idOf g) else none := by
    have hparent := hp.uncleared.parent
    unfold Parameter.sentParent
    cases (s.heap r).parent <;> cases (s.heap r).parentChanged <;> simp_all [namedGroup]
    rfl
  refine ⟨_, Parameter.sent_full hp.readable hp.uncleared hk _, ?_, parse_of_readPacket ⟨stream ch.junk [], ?_⟩⟩
  · show Parameter.children _ = ∅
    unfold Parameter.children
    split
    · next c' hc' => exact hk.empty hc'
    · rfl
  · have hparameter := hread Store storeEnv c [0] ch.junk
    rw [hnamed] at hparameter
    have hpacket : s.packet r = ⟨.update, .parameter ((s.heap r).writeFull s.idOf false).1⟩ := by
      rw [packet, ho, Parameter.write_of_not_onlyValueChanged false ho]
      rfl
    rw [hpacket]
    exact readPacket_update hparameter

/-- Whatever its form, a packet of `update()` is read as what was sent. -/
theorem parse_packet (hp : Ready (s.heap r)) (c : Store) (ch : Chance) :
    ∃ w command, (s.heap r).Sent (fun g => c.named (s.idOf g)) w ∧ w.children = ∅ ∧ c.parse ch (s.packet r).bytes =
      ⟨c.withProxy w, some { command := command, data := some (.parameter w) }, .accepted⟩ := by
  cases ho : (s.heap r).onlyValueChanged with
  | true =>
    obtain ⟨w, h⟩ := parse_short hp ho c ch
    exact ⟨w, _, h⟩
  | false =>
    obtain ⟨w, h⟩ := parse_full hp ho c ch
    exact ⟨w, _, h⟩

/-! ### What trails -/

/-- The copy of the parameter `r` trails it, or is still to be made; so is the copy of its group. -/
structure TrailedAt (s : Store) (l : List Ref) (c : Store) (r : Ref) : Prop where
  known : ∀ {x : Ref}, c.params[s.idOf r]? = some x →
    (s.heap r).Trails (fun g => c.params[s.idOf g]?) (r ∈ l) (c.heap x)
  fresh : c.params[s.idOf r]? = none → r ∈ l ∧ (s.heap r).parentChanged = true ∧ ∀ o,
    (s.heap r).Matches (fun g => c.params[s.idOf g]?) (.create {} 0 (s.heap r).kind.type) o ∨
      (s.heap r).changed o = true
  parent : ∀ {g : Ref}, s.parent r = some g → g ≠ root →
    s.idOf g ∈ c.params ∨ r ∈ l ∧ (s.heap r).parentChanged = true ∧ s.idOf g < s.idOf r
  top : ∀ {x : Ref}, s.parent r = some root → c.params[s.idOf r]? = some x → c.parent x = none

/-- The client holds copies that trail the parameters of the server, and copies of removed ones.  Removals of the ids
in `k` and updates of the parameters in `l` are still to come. -/
structure Trailed (s : Store) (k : List Id) (l : List Ref) (c : Store) : Prop where
  kempt : Kempt c
  ids : ∀ i : Id, i ∈ c.params → i ∈ s.params ∨ i ∈ k
  above : ∀ {r x y : Ref}, s.Live r → c.params[s.idOf r]? = some x → c.parent x = some y → c.idOf y ∈ s.params
  copies : ∀ {r : Ref}, s.Live r → TrailedAt s l c r

/-- Nothing that is sent has been cleared, and every parameter has a type that the server creates. -/
structure Additive (s : Store) : Prop extends Settled s where
  created : ∀ {r : Ref}, s.Live r → ∃ f : CreateFunction, (s.heap r).kind.type = f.type
  uncleared : ∀ {r : Ref}, s.Live r → (s.heap r).Uncleared

/-- A client has taken over the update of `r`. -/
structure Caught (s : Store) (r x : Ref) (c t : Store) : Prop extends Absorbed c (s.idOf r) x t where
  booked : Booked t
  type : (t.heap x).kind.type = (s.heap r).kind.type
  shown : ∀ o, (s.heap r).Matches (fun g => c.params[s.idOf g]?) (t.heap x) o

theorem isGroup_of_type {p q : Parameter} (h : q.kind.type = p.kind.type) : q.isGroup = p.isGroup := by
  rw [Parameter.isGroup_eq, Parameter.isGroup_eq, Parameter.getDatatype, Parameter.getDatatype, datatype_of_type h]

/-- The copy of the group of a parameter is found under the id that is sent. -/
private theorem copy_of_group (hs : Additive s) (h : Trailed s k l c) (hr : s.Live r) (hg : s.parent r = some g)
    (hx : c.params[s.idOf g]? = some x) :
    c.Live x ∧ (c.heap x).isGroup = true ∧ c.named (s.idOf g) = some x := by
  have hlive : s.Live g := by
    rcases hs.held hr hg with rfl | hlive
    · rw [hs.rootId, h.kempt.zero] at hx
      simp at hx
    · exact hlive
  have hgroup : (s.heap g).isGroup = true := isGroup_of_mem_children ((hs.mem_children_iff hr).mpr hg)
  have hcopy : (c.heap x).isGroup = true := (isGroup_of_type ((h.copies hlive).known hx).type).trans hgroup
  refine ⟨h.kempt.live hx, hcopy, ?_⟩
  rw [Store.named, if_neg (hs.idOf_ne_zero hlive), getGroup, hx]
  exact if_pos hcopy

private theorem bind_named (hs : Additive s) (h : Trailed s k l c) (hr : s.Live r)
    (hknown : ∀ g, s.parent r = some g → g ≠ root → s.idOf g ∈ c.params) :
    ((s.heap r).parent.bind fun g => c.params[s.idOf g]?) = (s.heap r).parent.bind fun g => c.named (s.idOf g) := by
  cases hg : (s.heap r).parent with
  | none => rfl
  | some g =>
    show c.params[s.idOf g]? = c.named (s.idOf g)
    by_cases hroot : g = root
    · rw [hroot, hs.rootId, h.kempt.zero]
      exact (if_pos rfl).symm
    · obtain ⟨x, hx⟩ := mem_iff_exists.mp (hknown g hg hroot)
      rw [hx, (copy_of_group hs h hr hg hx).2.2]

/-- A client takes over a packet of `update()` if it knows the group of the parameter. -/
theorem caught_received (hs : Additive s) {c : Client} (h : Trailed s k l c.store) (hr : s.Live r)
    (hp : (s.heap r).Readable) (hk : (s.heap r).kind.Readable false)
    (hknown : ∀ g, s.parent r = some g → g ≠ root → s.idOf g ∈ c.store.params) (ch : Chance) :
    ∃ x, Caught s r x c.store (c.received ch (s.packet r).bytes).1.store := by
  have hc := h.kempt
  obtain ⟨w, command, hsent, hempty, hparse⟩ :=
    parse_packet ⟨hs.created hr, hs.uncleared hr, hp, hk⟩ c.store ch
  replace hsent := hsent.congr_named (bind_named hs h hr hknown)
  have hid : w.parameterId = s.idOf r := hsent.id
  have hgroup : ∀ x, w.parent = some x → c.store.Live x ∧ (c.store.heap x).isGroup = true := by
    intro x hx
    rw [hsent.parent] at hx
    split at hx
    · obtain ⟨g, hg, hgx⟩ := Option.bind_eq_some_iff.mp hx
      have hcopy := copy_of_group hs h hr hg hgx
      exact ⟨hcopy.1, hcopy.2.1⟩
    · simp at hx
  have hproxy : (c.store.withProxy w).heap c.store.next = w := if_pos rfl
  have hparams :
      (c.store.withProxy w).params[(c.store.withProxy w).idOf c.store.next]? = c.store.params[s.idOf r]? := by
    rw [params_withProxy, hid]
  have hstore : (c.received ch (s.packet r).bytes).1.store =
      Client.applyUpdate c.store.next (c.store.withProxy w) := by
    rw [Client.received_of_parameter (p := w) (by rw [hparse]) (by rw [hparse]; rfl), hparse]
  have hbooked := (clientKept_booked.received ch (s.packet r).bytes ⟨hc.booked, hc.built⟩).1
  rw [hstore, Client.applyUpdate, hparams] at hbooked
  rw [hstore, Client.applyUpdate, hparams]
  cases hx : c.store.params[s.idOf r]? with
  | none =>
    have hnone : c.store.params[w.parameterId]? = none := by rw [hid, hx]
    have hadopted := hc.adopted hnone fun g hg => (hgroup g hg).1
    have hvalid : w.isValid = true := by
      refine valid_of_created ?_ (by rw [hid]; exact hs.idOf_ne_zero hr)
      obtain ⟨f, hf⟩ := hs.created hr
      exact ⟨f, hsent.kind.type.trans hf⟩
    have habsorbed := absorbed_adopted hc hgroup hadopted hnone hvalid hempty
    rw [hid] at habsorbed
    rw [hx] at hbooked
    refine ⟨c.store.next, habsorbed, hbooked, ?_, fun o => ?_⟩
    · rw [hadopted.proxy]
      exact hsent.kind.type
    · have hm := hsent.matches_new (((h.copies hr).fresh hx).2.2 o)
      rw [hadopted.proxy]
      cases o <;> exact hm
  | some x =>
    have hx' : c.store.params[w.parameterId]? = some x := by rw [hid, hx]
    have hlt := hc.built hx
    have hheap : (c.store.withProxy w).heap x = c.store.heap x := heap_withProxy w (Nat.ne_of_lt hlt)
    have hsame : (c.store.withProxy w).idOf c.store.next = (c.store.withProxy w).idOf x := by
      rw [Store.idOf, Store.idOf, hproxy, hheap, hid]
      exact (hc.idOf hx).symm
    have hrecord := childless_update (Nat.ne_of_gt hlt) hsame
    rw [hproxy, hheap] at hrecord
    have habsorbed := absorbed_updated hc hgroup hempty hx'
    rw [hid] at habsorbed
    have htrails := (h.copies hr).known hx
    rw [hx] at hbooked
    dsimp only at hbooked ⊢
    rw [hheap, if_pos (hc.valid hx)] at hbooked ⊢
    refine ⟨x, habsorbed, hbooked, ?_, fun o => ?_⟩
    · have hkind := (congrArg (fun p => Kind.type (Parameter.kind p)) hrecord :)
      simp only [Parameter.childless, Kind.type_childless] at hkind
      exact (hkind.trans (Kind.type_takeOver _ _)).trans htrails.type
    · refine (hsent.matches_updated (hs.uncleared hr) htrails (fun g old hg hold heq => ?_) (fun hbind => ?_) o).congr
        hrecord
      · have hlive := hc.held hx hold
        have hg' := (hgroup g hg).1
        have hids : ∀ {y : Ref}, c.store.Live y → (c.store.withProxy w).idOf y = c.store.idOf y := fun hy => by
          rw [Store.idOf, heap_withProxy w (Nat.ne_of_lt (hc.built hy))]
          rfl
        rw [hids hg', hids hlive] at heq
        exact hlive.eq_of_idOf hg' heq
      · obtain ⟨g, hg, -⟩ := hs.parent hr
        by_cases hroot : g = root
        · rw [hroot] at hg
          exact (h.copies hr).top hg hx
        · obtain ⟨y, hy⟩ := mem_iff_exists.mp (hknown g hg hroot)
          rw [show (s.heap r).parent = some g from hg] at hbind
          exact absurd (hbind.symm.trans hy) (by simp)

section Caught

variable (hs : Additive s) (hr : s.Live r) (ht : Caught s r x c t)

include hs hr ht

/-- The copy of a group that was known is where it was. -/
private theorem Caught.copy_of_known (hg : g = root ∨ s.idOf g ∈ c.params) :
    t.params[s.idOf g]? = c.params[s.idOf g]? := by
  rcases hg with rfl | hg
  · rw [ht.params, if_neg fun h0 => hs.idOf_ne_zero hr (h0.symm.trans hs.rootId)]
  · obtain ⟨y, hy⟩ := mem_iff_exists.mp hg
    rw [ht.known hy, hy]

variable (h : Trailed s k (r :: l) c)

include h

/-- The parameter that was sent. -/
private theorem Caught.sent (hknown : ∀ g, s.parent r = some g → g ≠ root → s.idOf g ∈ c.params) :
    TrailedAt s l t r := by
  have hcopy : t.params[s.idOf r]? = some x := by rw [ht.params, if_pos rfl]
  have hbind : ((s.heap r).parent.bind fun g => t.params[s.idOf g]?) =
      (s.heap r).parent.bind fun g => c.params[s.idOf g]? := by
    cases hg : (s.heap r).parent with
    | none => rfl
    | some g => exact ht.copy_of_known hs hr (or_iff_not_imp_left.mpr (hknown g hg))
  refine ⟨fun {y} hy => ?_, fun hnone => ?_, fun {g} hg hroot => Or.inl ?_, fun {y} hg hy => ?_⟩
  · obtain rfl : x = y := Option.some.inj (hcopy.symm.trans hy)
    exact Parameter.trails_of_matches (fun o => (ht.shown o).congr_named fun _ => hbind) ht.type _
  · rw [hcopy] at hnone
    simp at hnone
  · obtain ⟨y, hy⟩ := mem_iff_exists.mp (hknown g hg hroot)
    exact mem_of_getElem? (ht.known hy)
  · obtain rfl : x = y := Option.some.inj (hcopy.symm.trans hy)
    have hparent : t.parent x = (s.heap r).parent.bind fun g => c.params[s.idOf g]? := ht.shown .parentId
    rw [hparent, show (s.heap r).parent = some root from hg]
    show c.params[s.idOf root]? = none
    rw [hs.rootId, h.kempt.zero]

/-- Any other parameter. -/
private theorem Caught.others (hy : s.Live y) (hne : y ≠ r) : TrailedAt s l t y := by
  have hold := h.copies hy
  have hid : s.idOf y ≠ s.idOf r := fun heq => hne (hr.eq_of_idOf hy heq)
  have hparams : t.params[s.idOf y]? = c.params[s.idOf y]? := by rw [ht.params, if_neg hid]
  have hmem : y ∈ r :: l → y ∈ l := fun hm => (List.mem_cons.mp hm).resolve_left hne
  have hrecord : ∀ {z : Ref}, t.params[s.idOf y]? = some z →
      c.params[s.idOf y]? = some z ∧ (t.heap z).childless = (c.heap z).childless := by
    intro z hz
    rcases ht.cases h.kempt hz with ⟨heq, -⟩ | ⟨-, hzc, hzx⟩
    · exact absurd heq hid
    · exact ⟨hzc, ht.record hzc hzx⟩
  -- a group that was not known is sent with its parameter
  have hgroup : ((s.heap y).parent.bind fun g => t.params[s.idOf g]?) =
      ((s.heap y).parent.bind fun g => c.params[s.idOf g]?) ∨ (s.heap y).parentChanged = true ∧ y ∈ l := by
    cases hg : (s.heap y).parent with
    | none => exact Or.inl rfl
    | some g =>
      by_cases hroot : g = root
      · exact Or.inl (ht.copy_of_known hs hr (Or.inl hroot))
      · rcases hold.parent hg hroot with hknown | ⟨hl, hc, -⟩
        · exact Or.inl (ht.copy_of_known hs hr (Or.inr hknown))
        · exact Or.inr ⟨hc, hmem hl⟩
  refine ⟨fun {z} hz => ?_, fun hnone => ?_, fun {g} hg hroot => ?_, fun {z} hg hz => ?_⟩
  · obtain ⟨hzc, hzrec⟩ := hrecord hz
    have htrails := hold.known hzc
    refine htrails.congr hzrec fun o ho => ?_
    rcases ho with hm | ⟨hc, hl⟩
    · rcases hgroup with hsame | hchanged
      · exact Or.inl (hm.congr_named fun _ => hsame)
      · by_cases ho : o = .parentId
        · rw [ho]
          exact Or.inr hchanged
        · exact Or.inl (hm.congr_named fun heq => absurd heq ho)
    · exact Or.inr ⟨hc, hmem hl⟩
  · obtain ⟨hl, hc, ho⟩ := hold.fresh (hparams.symm.trans hnone)
    refine ⟨hmem hl, hc, fun o => ?_⟩
    by_cases hparent : o = .parentId
    · rw [hparent]
      exact Or.inr hc
    · exact (ho o).imp_left fun hm => hm.congr_named fun heq => absurd heq hparent
  · rcases hold.parent hg hroot with hknown | ⟨hl, hrest⟩
    · obtain ⟨z, hz⟩ := mem_iff_exists.mp hknown
      exact Or.inl (mem_of_getElem? (ht.known hz))
    · exact Or.inr ⟨hmem hl, hrest⟩
  · obtain ⟨hzc, hzrec⟩ := hrecord hz
    exact (parent_of_record hzrec).trans (hold.top hg hzc)

/-- Then the copy of the parameter shows it, and the other copies trail as before. -/
theorem Caught.trailed (hknown : ∀ g, s.parent r = some g → g ≠ root → s.idOf g ∈ c.params) : Trailed s k l t := by
  have hparent : ∀ {z : Ref}, t.parent x = some z → ∃ g, s.parent r = some g ∧ c.params[s.idOf g]? = some z := by
    intro z hz
    rw [show t.parent x = (s.heap r).parent.bind fun g => c.params[s.idOf g]? from ht.shown .parentId] at hz
    exact Option.bind_eq_some_iff.mp hz
  refine ⟨?_, fun i hi => ?_, fun {y z v} hy hz hv => ?_, fun {y} hy => ?_⟩
  · refine ht.kempt h.kempt ht.booked fun z hz => ?_
    obtain ⟨g, -, hg⟩ := hparent hz
    exact h.kempt.live hg
  · obtain ⟨y, hy⟩ := mem_iff_exists.mp hi
    rw [ht.params] at hy
    split at hy
    · next hir => exact Or.inl (by rw [hir]; exact mem_of_getElem? hr)
    · exact h.ids i (mem_of_getElem? hy)
  · rcases ht.cases h.kempt hz with ⟨-, rfl⟩ | ⟨-, hzc, hzx⟩
    · obtain ⟨g, hg, hgv⟩ := hparent hv
      have hlive : s.Live g := by
        refine (hs.held hr hg).resolve_left fun hroot => ?_
        rw [hroot, hs.rootId, h.kempt.zero] at hgv
        simp at hgv
      rw [ht.idOf_known h.kempt hgv, h.kempt.idOf hgv]
      exact mem_of_getElem? hlive
    · rw [show t.parent z = c.parent z from parent_of_record (ht.record hzc hzx)] at hv
      rw [ht.idOf_known h.kempt (h.kempt.held hzc hv)]
      exact h.above hy hzc hv
  · by_cases hne : y = r
    · rw [hne]
      exact ht.sent hs hr h hknown
    · exact ht.others hs hr h hy hne

end Caught

/-! ### Removals -/

section Removal

variable (hs : Additive s) (h : Trailed s (i :: k) l c) (hi : i ∉ s.params) (hx : c.params[i]? = some x)

include hs h hi hx

/-- What lies below the copy of a removed parameter has been removed itself. -/
private theorem notMem_of_below (hy : Below c.childRefs x y) : c.Live y ∧ c.idOf y ∉ s.params := by
  induction hy with
  | refl => exact ⟨h.kempt.live hx, by rw [h.kempt.idOf hx]; exact hi⟩
  | tail _ hz ih =>
    obtain ⟨j, hj⟩ := mem_childRefs_iff.mp hz
    refine ⟨h.kempt.child_live hj, fun hm => ih.2 ?_⟩
    obtain ⟨r, hr⟩ := mem_iff_exists.mp hm
    refine h.above (hs.live hr) ?_ (h.kempt.child hj).2.1
    rw [hs.idOf hr]
    exact h.kempt.child_live hj

variable (ht : Dropped c x t)

include ht

/-- So the copies of what the server holds stay. -/
private theorem copy_of_dropped (hr : s.Held r) : t.params[s.idOf r]? = c.params[s.idOf r]? := by
  rcases hr with rfl | hr
  · rw [hs.rootId, h.kempt.zero, ht.kempt.zero]
  · cases hy : c.params[s.idOf r]? with
    | some y =>
      refine (ht.params _ _).mpr ⟨hy, fun hbelow => (notMem_of_below hs h hi hx hbelow).2 ?_⟩
      rw [h.kempt.idOf hy]
      exact mem_of_getElem? hr
    | none =>
      cases hz : t.params[s.idOf r]? with
      | none => rfl
      | some z => exact absurd (hy.symm.trans ((ht.params _ _).mp hz).1) (by simp)

theorem trailed_dropped : Trailed s k l t := by
  have hparent : ∀ {j : Id} {y : Ref}, t.params[j]? = some y → t.parent y = c.parent y := fun hy =>
    parent_of_record (ht.record hy)
  refine ⟨ht.kempt, fun j hj => ?_, fun {r y z} hr hy hz => ?_, fun {r} hr => ?_⟩
  · obtain ⟨y, hy⟩ := mem_iff_exists.mp hj
    obtain ⟨hyc, hbelow⟩ := (ht.params j y).mp hy
    refine (h.ids j (mem_of_getElem? hyc)).imp_right fun hm => (List.mem_cons.mp hm).resolve_left fun hji => hbelow ?_
    rw [hji, hx] at hyc
    rw [Option.some.inj hyc]
  · have hlive := ht.kempt.held hy hz
    rw [hparent hy] at hz
    have hid : t.idOf z = c.idOf z := (congrArg Parameter.parameterId (ht.record hlive) :)
    rw [hid]
    exact h.above hr ((ht.params _ _).mp hy).1 hz
  · have hold := h.copies hr
    have hsame := copy_of_dropped hs h hi hx ht (Or.inr hr)
    have hbind : ((s.heap r).parent.bind fun g => t.params[s.idOf g]?) =
        (s.heap r).parent.bind fun g => c.params[s.idOf g]? := by
      cases hg : (s.heap r).parent with
      | none => rfl
      | some g => exact copy_of_dropped hs h hi hx ht (hs.held hr hg)
    refine ⟨fun {y} hy => ?_, fun hnone => ?_, fun {g} hg hroot => ?_, fun {y} hg hy => ?_⟩
    · exact (hold.known (hsame ▸ hy)).congr (ht.record hy) fun o ho =>
        ho.imp_left fun hm => hm.congr_named fun _ => hbind
    · obtain ⟨hl, hc, ho⟩ := hold.fresh (hsame ▸ hnone)
      exact ⟨hl, hc, fun o => (ho o).imp_left fun hm => hm.congr_named fun _ => hbind⟩
    · refine (hold.parent hg hroot).imp_left fun hm => ?_
      obtain ⟨y, hy⟩ := mem_iff_exists.mp hm
      rw [← copy_of_dropped hs h hi hx ht (hs.held hr hg)] at hy
      exact mem_of_getElem? hy
    · rw [hparent hy]
      exact hold.top hg (hsame ▸ hy)

end Removal

/-! ### A flush -/

theorem exists_cons_of_map {α β γ : Type} {f : γ → β} {a : γ} {l : List (α × β)} {as : List γ}
    (h : l.map Prod.snd = (a :: as).map f) : ∃ m ms, l = m :: ms ∧ m.2 = f a ∧ ms.map Prod.snd = as.map f := by
  cases l with
  | nil => simp at h
  | cons m ms =>
    rw [List.map_cons, List.map_cons, List.cons.injEq] at h
    exact ⟨m, ms, rfl, h.1, h.2⟩

/-- The removals come first. -/
theorem trailed_removes (hs : Additive s) (hk : ∀ i ∈ k, i ∉ s.params) {c : Client} (h : Trailed s k l c.store)
    {ms : List (Chance × Message)} (hms : ms.map Prod.snd = k.map fun i => ⟨.remove, .id i⟩) :
    Trailed s [] l (c.process ms).store := by
  induction k generalizing c ms with
  | nil =>
    obtain rfl : ms = [] := List.map_eq_nil_iff.mp hms
    exact h
  | cons i k ih =>
    obtain ⟨m, ms, rfl, hm, hms⟩ := exists_cons_of_map hms
    refine ih (fun j hj => hk j (List.mem_cons_of_mem _ hj)) (c := (c.received m.1 m.2.bytes).1) ?_ hms
    rw [hm, Client.received_remove, Client.applyRemove]
    cases hx : c.store.params[i]? with
    | none =>
      refine ⟨h.kempt, fun j hj => (h.ids j hj).imp_right fun hm => (List.mem_cons.mp hm).resolve_left ?_, h.above,
        h.copies⟩
      rintro rfl
      obtain ⟨y, hy⟩ := mem_iff_exists.mp hj
      rw [hx] at hy
      simp at hy
    | some x =>
      dsimp only
      rw [if_pos (h.kempt.valid hx)]
      exact trailed_dropped hs h (hk i List.mem_cons_self) hx (dropped_removeParameterDirect h.kempt (h.kempt.live hx))

/-- The first of the updates, which come in the order of the ids. -/
theorem trailed_received (hs : Additive s) (hl : (r :: l).Pairwise fun r x => s.idOf r < s.idOf x)
    (hp : s.Live r ∧ (s.heap r).Readable ∧ (s.heap r).kind.Readable false) {c : Client}
    (h : Trailed s k (r :: l) c.store) (ch : Chance) : Trailed s k l (c.received ch (s.packet r).bytes).1.store := by
  obtain ⟨hfirst, -⟩ := List.pairwise_cons.mp hl
  obtain ⟨hr, hreadable, hkind⟩ := hp
  have hknown : ∀ g, s.parent r = some g → g ≠ root → s.idOf g ∈ c.store.params := by
    intro g hg hroot
    rcases (h.copies hr).parent hg hroot with hk | ⟨-, -, hlt⟩
    · exact hk
    · -- a group that is not known is to be sent, and it would have come first
      have hlive : s.Live g := (hs.held hr hg).resolve_left hroot
      cases hx : c.store.params[s.idOf g]? with
      | some x => exact mem_of_getElem? hx
      | none =>
        rcases List.mem_cons.mp ((h.copies hlive).fresh hx).1 with rfl | hgl
        · exact (Int16.lt_irrefl hlt).elim
        · exact (Int16.lt_irrefl (Int16.lt_trans hlt (hfirst g hgl))).elim
  obtain ⟨x, hx⟩ := caught_received hs h hr hreadable hkind hknown ch
  exact hx.trailed hs hr h hknown

theorem trailed_updates (hs : Additive s) (hl : l.Pairwise fun r x => s.idOf r < s.idOf x)
    (hp : ∀ r ∈ l, s.Live r ∧ (s.heap r).Readable ∧ (s.heap r).kind.Readable false) {c : Client}
    (h : Trailed s k l c.store) {ms : List (Chance × Message)} (hms : ms.map Prod.snd = l.map s.packet) :
    Trailed s k [] (c.process ms).store := by
  induction l generalizing c ms with
  | nil =>
    obtain rfl : ms = [] := List.map_eq_nil_iff.mp hms
    exact h
  | cons r l ih =>
    obtain ⟨m, ms, rfl, hm, hms⟩ := exists_cons_of_map hms
    refine ih (List.pairwise_cons.mp hl).2 (fun x hx => hp x (List.mem_cons_of_mem _ hx))
      (c := (c.received m.1 m.2.bytes).1) ?_ hms
    rw [hm]
    exact trailed_received hs hl (hp r List.mem_cons_self) h m.1

end Store

end RabbitControl

import RabbitControl.Lib.Forest
import RabbitControl.Links
import RabbitControl.Calls
import RabbitControl.PacketLemmas

/-!
# What is sent

The packets of `update()` are one for each removed and each dirty parameter (`packets_update`).  The packets that
answer `INITIALIZE` are those of a depth-first traversal of the children of the root group (`sendAll_eq`).  Neither
changes the group tree.
-/

namespace RabbitControl

open Lib

namespace Store

variable {s t : Store} {r x : Ref} {l : List Ref}

/-! ### Writing a list of parameters -/

theorem sameTree_put_write (s : Store) (r : Ref) (idOf : Ref → Id) (all : Bool) :
    SameTree s (s.put r ((s.heap r).write idOf all).2) := by
  refine sameTree_of_shape (fun x => ?_) rfl rfl rfl
  by_cases hx : x = r
  · subst hx; simp [put]
  · simp [put, hx]

theorem idOf_put_write (s : Store) (r : Ref) (idOf : Ref → Id) (all : Bool) :
    (s.put r ((s.heap r).write idOf all).2).idOf = s.idOf :=
  funext (sameTree_put_write s r idOf all).idOf

/-- The packet that `update()` sends for a parameter. -/
def packet (s : Store) (r : Ref) : Message :=
  ⟨if (s.heap r).onlyValueChanged then .updateValue else .update, .parameter ((s.heap r).write s.idOf false).1⟩

theorem SameTree.refl (s : Store) : SameTree s s :=
  ⟨fun _ => rfl, fun _ => rfl, fun _ => rfl, fun _ => rfl, fun _ => rfl, fun _ => rfl, rfl, rfl, rfl⟩

theorem sameTree_writeDirty (l : List Ref) (s : Store) : SameTree s (writeDirty l s).2 := by
  induction l generalizing s with
  | nil => exact .refl s
  | cons r l ih => exact (sameTree_put_write s r s.idOf false).trans (ih _)

theorem lists_writeDirty (l : List Ref) (s : Store) :
    (writeDirty l s).2.dirtyParameter = s.dirtyParameter ∧ (writeDirty l s).2.removedParameter = s.removedParameter := by
  induction l generalizing s with
  | nil => exact ⟨rfl, rfl⟩
  | cons r l ih => exact ih _

/-- Parameters that are not in the list stay as they are. -/
theorem heap_writeDirty_of_notMem (hx : x ∉ l) : (writeDirty l s).2.heap x = s.heap x := by
  induction l generalizing s with
  | nil => rfl
  | cons r l ih =>
    rw [List.mem_cons, not_or] at hx
    rw [writeDirty]
    dsimp only
    rw [ih hx.2]
    simp [put, hx.1]

/-- A list of different parameters is written as if each were written alone. -/
theorem packets_writeDirty (hl : l.Nodup) : (writeDirty l s).1 = l.map s.packet := by
  induction l generalizing s with
  | nil => rfl
  | cons r l ih =>
    rw [List.nodup_cons] at hl
    rw [writeDirty, List.map_cons]
    dsimp only
    rw [ih hl.2]
    congr 1
    refine List.map_congr_left fun x hx => ?_
    have hxr : x ≠ r := fun h => hl.1 (h ▸ hx)
    simp only [packet, idOf_put_write]
    simp [put, hxr]

theorem heap_writeDirty (hl : l.Nodup) (hx : x ∈ l) :
    (writeDirty l s).2.heap x = ((s.heap x).write s.idOf false).2 := by
  induction l generalizing s with
  | nil => simp at hx
  | cons r l ih =>
    rw [List.nodup_cons] at hl
    rw [writeDirty]
    dsimp only
    rcases List.mem_cons.mp hx with rfl | hx
    · rw [heap_writeDirty_of_notMem hl.1]
      simp [put]
    · have hxr : x ≠ r := fun h => hl.1 (h ▸ hx)
      rw [ih hl.2 hx, idOf_put_write]
      simp [put, hxr]

/-! ### The dirty list -/

/-- The dirty list names parameters by their ids. -/
def Keyed (s : Store) : Prop := ∀ {id : Id} {r : Ref}, s.dirtyParameter[id]? = some r → s.idOf r = id

theorem mem_dirtyRefs : r ∈ s.dirtyRefs ↔ ∃ id : Id, s.dirtyParameter[id]? = some r := by
  rw [dirtyRefs, List.mem_map]
  constructor
  · rintro ⟨⟨id, r'⟩, h, rfl⟩
    exact ⟨id, Std.ExtTreeMap.mem_toList_iff_getElem?_eq_some.mp h⟩
  · rintro ⟨id, h⟩
    exact ⟨(id, r), Std.ExtTreeMap.mem_toList_iff_getElem?_eq_some.mpr h, rfl⟩

theorem nodup_dirtyRefs (h : s.Keyed) : s.dirtyRefs.Nodup := by
  rw [dirtyRefs, List.nodup_iff_pairwise_ne, List.pairwise_map]
  refine Std.ExtTreeMap.distinct_keys_toList.imp_of_mem fun {a b} ha hb hab => ?_
  rw [Std.ExtTreeMap.mem_toList_iff_getElem?_eq_some] at ha hb
  intro heq
  have hid := h ha
  rw [heq, h hb] at hid
  exact hab (by simp [hid])

end Store

namespace Server

variable {s : Server} {m : Message}

/-- The packets of `update()`: first the removed parameters, then the dirty ones. -/
theorem packets_update (hk : s.store.Keyed) (ht : s.transporterList ≠ []) :
    s.update.1 = (s.store.removedParameter.toList.map fun e => ⟨.remove, .id (s.store.idOf e.2)⟩) ++
      s.store.dirtyRefs.map s.store.packet := by
  rw [update, if_neg ht]
  dsimp only
  rw [Store.packets_writeDirty (Store.nodup_dirtyRefs hk)]

theorem sameTree_update (s : Server) : Store.SameTree s.store s.update.2.store := by
  unfold update
  split
  · exact .refl _
  · have h := Store.sameTree_writeDirty s.store.dirtyRefs s.store
    exact ⟨h.idOf, h.datatype, h.isGroup, h.managed, h.parent, h.children, h.params, h.ids, h.next⟩

theorem lists_update (ht : s.transporterList ≠ []) :
    s.update.2.store.dirtyParameter = ∅ ∧ s.update.2.store.removedParameter = ∅ := by
  rw [update, if_neg ht]
  exact ⟨rfl, rfl⟩

end Server

/-! ### Full transmissions -/

namespace Store

variable {s t : Store} {r x : Ref} {l : List Ref}

/-- Write a list of parameters in full, each in an `UPDATE` packet. -/
def writeFull : List Ref → Store → List Message × Store
  | [], s => ([], s)
  | r :: rs, s =>
    let w := (s.heap r).write s.idOf true
    let rest := writeFull rs (s.put r w.2)
    (⟨.update, .parameter w.1⟩ :: rest.1, rest.2)

theorem sameTree_writeFull (l : List Ref) (s : Store) : SameTree s (writeFull l s).2 := by
  induction l generalizing s with
  | nil => exact .refl s
  | cons r l ih => exact (sameTree_put_write s r s.idOf true).trans (ih _)

theorem lists_writeFull (l : List Ref) (s : Store) :
    (writeFull l s).2.dirtyParameter = s.dirtyParameter ∧ (writeFull l s).2.removedParameter = s.removedParameter := by
  induction l generalizing s with
  | nil => exact ⟨rfl, rfl⟩
  | cons r l ih => exact ih _

/-- The packet of a parameter in a full transmission. -/
def packetFull (s : Store) (r : Ref) : Message := ⟨.update, .parameter ((s.heap r).write s.idOf true).1⟩

theorem packets_writeFull (hl : l.Nodup) : (writeFull l s).1 = l.map s.packetFull := by
  induction l generalizing s with
  | nil => rfl
  | cons r l ih =>
    rw [List.nodup_cons] at hl
    rw [writeFull, List.map_cons]
    dsimp only
    rw [ih hl.2]
    congr 1
    refine List.map_congr_left fun x hx => ?_
    have hxr : x ≠ r := fun h => hl.1 (h ▸ hx)
    simp only [packetFull, idOf_put_write]
    simp [put, hxr]

theorem writeFull_append (l₁ l₂ : List Ref) (s : Store) :
    writeFull (l₁ ++ l₂) s =
      ((writeFull l₁ s).1 ++ (writeFull l₂ (writeFull l₁ s).2).1, (writeFull l₂ (writeFull l₁ s).2).2) := by
  induction l₁ generalizing s with
  | nil => rfl
  | cons r l ih => simp only [List.cons_append, writeFull, ih]

/-- What is preserved by the full write of one parameter is preserved by that of a list. -/
theorem writeFull_invariant {P : Parameter → Prop} {x : Ref}
    (h : ∀ p idOf, P p → P (p.write idOf true).2) (l : List Ref) (s : Store) (hx : P (s.heap x)) :
    P ((writeFull l s).2.heap x) := by
  induction l generalizing s with
  | nil => exact hx
  | cons r l ih =>
    refine ih _ ?_
    by_cases hr : x = r
    · subst hr; simpa [put] using h _ s.idOf hx
    · simpa [put, hr] using hx

/-- Each packet names its parameter. -/
theorem ids_writeFull (l : List Ref) (s : Store) :
    (writeFull l s).1.map (·.data.parameterId) = l.map fun r => some (s.idOf r) := by
  induction l generalizing s with
  | nil => rfl
  | cons r l ih =>
    rw [writeFull, List.map_cons, List.map_cons, ih, idOf_put_write]
    exact congrArg (some · :: _) (Parameter.id_write ..)

def childRefs (s : Store) (g : Ref) : List Ref := (s.children g).toList.map Prod.snd

theorem mem_childRefs_iff {g c : Ref} : c ∈ s.childRefs g ↔ ∃ id : Id, (s.children g)[id]? = some c := by
  rw [childRefs, List.mem_map]
  constructor
  · rintro ⟨⟨id, c'⟩, h, rfl⟩
    exact ⟨id, Std.ExtTreeMap.mem_toList_iff_getElem?_eq_some.mp h⟩
  · rintro ⟨id, h⟩
    exact ⟨(id, c), Std.ExtTreeMap.mem_toList_iff_getElem?_eq_some.mpr h, rfl⟩

theorem SameTree.childRefs (h : SameTree s t) : t.childRefs = s.childRefs :=
  funext fun g => by rw [Store.childRefs, Store.childRefs, h.children]

/-- The transmission of a list of parameters. -/
def transmit (v : List Ref × Bool) (s : Store) : Transmission := ⟨(writeFull v.1 s).2, (writeFull v.1 s).1, v.2⟩

private theorem foldl_andThen (f : Ref → Store → Transmission) (v : Ref → List Ref × Bool)
    (cs : List (Int16 × Ref)) (s : Store) (l : List Ref)
    (hf : ∀ c t, SameTree s t → f c t = t.transmit (v c)) :
    cs.foldl (fun t c => t.andThen (f c.2)) (s.transmit (l, true)) =
      s.transmit (l ++ (concatWhile v (cs.map Prod.snd)).1, (concatWhile v (cs.map Prod.snd)).2) := by
  -- once a transmission has not ended it stays as it is
  have stuck : ∀ (cs : List (Int16 × Ref)) (t : Transmission), t.ended = false →
      cs.foldl (fun t c => t.andThen (f c.2)) t = t := by
    intro cs
    induction cs with
    | nil => exact fun _ _ => rfl
    | cons c cs ih =>
      intro t ht
      rw [List.foldl_cons, Transmission.andThen, ht]
      exact ih t ht
  induction cs generalizing l with
  | nil => simp [concatWhile]
  | cons c cs ih =>
    have hstep : (s.transmit (l, true)).andThen (f c.2) = s.transmit (l ++ (v c.2).1, (v c.2).2) := by
      have hc := hf c.2 (writeFull l s).2 (sameTree_writeFull l s)
      simp [Transmission.andThen, transmit, hc, writeFull_append]
    rw [List.foldl_cons, hstep, List.map_cons, concatWhile]
    cases hv : (v c.2).2 with
    | true =>
      rw [ih]
      simp [List.append_assoc]
    | false =>
      rw [stuck _ _ rfl]
      simp [hv]

end Store

namespace Server

open Store

/-- A parameter is sent with what lies below it. -/
theorem sendParameterFull_eq (n : Nat) (r : Ref) (s : Store) :
    sendParameterFull n r s = s.transmit (preorder s.childRefs n r) := by
  induction n generalizing r s with
  | zero => rfl
  | succ n ih =>
    rw [sendParameterFull]
    have hfold := foldl_andThen (fun c t => sendParameterFull n c t) (preorder s.childRefs n)
      (s.children r).toList s [r] fun c t ht => by rw [ih, ht.childRefs]
    have hstart : s.transmit ([r], true) =
        { store := s.put r ((s.heap r).write s.idOf true).2,
          packets := [⟨.update, .parameter ((s.heap r).write s.idOf true).1⟩] } := rfl
    rw [hstart] at hfold
    rw [hfold]
    rfl

/-- `INITIALIZE` is answered with what lies below the root. -/
theorem sendAll_eq (n : Nat) (s : Store) :
    sendAll n s = s.transmit (concatWhile (preorder s.childRefs n) (s.childRefs root)) := by
  have hfold := foldl_andThen (fun c t => sendParameterFull n c t) (preorder s.childRefs n)
    (s.children root).toList s [] fun c t ht => by rw [sendParameterFull_eq, ht.childRefs]
  exact hfold

/-! ### Received packets -/

section Received

variable {s : Server} {depth : Nat} {ch : Chance} {data : Bytes}

/-- `INITIALIZE` is answered if it can be read. -/
theorem received_of_init (h : IsInit data) :
    s.received depth ch data =
      if (s.store.parse ch data).verdict = .accepted then
        let t := sendAll depth s.store
        { server := { s with store := t.store }, replies := t.packets, ended := t.ended }
      else { server := s } := by
  have hstate : (s.store.parse ch data).state = s.store :=
    Store.state_parse_of_command (by rw [h]; decide) (by rw [h]; decide)
  obtain ⟨k, hk⟩ : ∃ k, (s.store.parse ch data).packet = some k := by
    rw [Store.parse_of_command (by rw [h]; decide) (by rw [h]; decide)]
    exact exists_packet_parsePacket h (by decide)
  have hcmd : k.command = .init := by
    have hc := Store.command_parse hk
    rw [h] at hc
    exact (Option.some.inj hc).symm
  unfold received
  dsimp only
  rw [hk, hstate]
  cases (s.store.parse ch data).verdict with
  | accepted => simp [hcmd]
  | rejected => simp
  | threw e => simp

/-- A parameter that can be read is applied, and the message is relayed. -/
theorem received_of_parameter {p : Parameter} (hv : (s.store.parse ch data).verdict = .accepted)
    (hp : (s.store.parse ch data).packet.bind Packet.parameter = some p) :
    s.received depth ch data =
      { server := { s with store := applyUpdate s.store.next (s.store.parse ch data).state }, relay := true } := by
  obtain ⟨k, hk, hkp⟩ := Option.bind_eq_some_iff.mp hp
  have hcmd := Store.command_of_parameter hk hkp
  have hdata := Packet.data_of_parameter hkp
  unfold received
  dsimp only
  rw [hv, hk]
  rcases hcmd with hcmd | hcmd <;> simp [hcmd, hdata]

/-- Any other message leaves what its reading has left, and is not relayed. -/
theorem received_of_no_parameter (hi : ¬IsInit data)
    (h : (s.store.parse ch data).verdict = .accepted → (s.store.parse ch data).packet.bind Packet.parameter = none) :
    (s.received depth ch data).server = { s with store := (s.store.parse ch data).state } ∧
      (s.received depth ch data).relay = false := by
  unfold received
  dsimp only
  split
  · next k hv hk =>
    have hcmd : k.command ≠ .init := fun hci => hi (by rw [IsInit, Store.command_parse hk, hci])
    have hp := h hv
    rw [hk, Option.bind_some] at hp
    split
    · next hci => exact absurd hci hcmd
    · split
      · next heq => simp [Packet.parameter, heq] at hp
      · exact ⟨rfl, rfl⟩
    · split
      · next heq => simp [Packet.parameter, heq] at hp
      · exact ⟨rfl, rfl⟩
    · split <;> exact ⟨rfl, rfl⟩
    · exact ⟨rfl, rfl⟩
    · exact ⟨rfl, rfl⟩
  · exact ⟨rfl, rfl⟩

/-- Nothing else is answered with parameters. -/
theorem replies_received (h : ¬IsInit data) :
    ∀ m ∈ (s.received depth ch data).replies, m.command = .info := by
  unfold received
  dsimp only
  split
  · next k _ hk =>
    have hcmd : k.command ≠ .init := fun hi => h (by rw [IsInit, Store.command_parse hk, hi])
    split
    · next hi => exact absurd hi hcmd
    all_goals (try split) <;> simp
  · simp

end Received

end Server

namespace Client

variable {c : Client} {ch : Chance} {data : Bytes}

/-- A parameter that can be read is applied. -/
theorem received_of_parameter {p : Parameter} (hv : (c.store.parse ch data).verdict = .accepted)
    (hp : (c.store.parse ch data).packet.bind Packet.parameter = some p) :
    c.received ch data = ({ c with store := applyUpdate c.store.next (c.store.parse ch data).state }, []) := by
  obtain ⟨k, hk, hkp⟩ := Option.bind_eq_some_iff.mp hp
  have hcmd := Store.command_of_parameter hk hkp
  have hdata := Packet.data_of_parameter hkp
  unfold received
  dsimp only
  rw [hv, hk]
  rcases hcmd with hcmd | hcmd <;> simp only [hcmd, hdata]

/-- Of the other messages only `REMOVE` does more than to be read. -/
theorem received_of_no_parameter (hr : commandOf data ≠ some .remove)
    (h : (c.store.parse ch data).verdict = .accepted → (c.store.parse ch data).packet.bind Packet.parameter = none) :
    (c.received ch data).1 = { c with store := (c.store.parse ch data).state } := by
  unfold received
  dsimp only
  split
  · next k hv hk =>
    have hcmd : k.command ≠ .remove := fun hc => hr (by rw [Store.command_parse hk, hc])
    have hp := h hv
    rw [hk, Option.bind_some] at hp
    clear hk hv
    obtain ⟨command, timestamp, body⟩ := k
    rcases body with _ | ⟨p⟩ | _ | _
    · cases command <;> rfl
    · exact absurd hp (Option.some_ne_none p)
    · cases command <;> first | rfl | exact absurd rfl hcmd
    · cases command <;> rfl
  · rfl

end Client

end RabbitControl

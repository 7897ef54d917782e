import RabbitControl.Flush

/-!
# Command and body of a packet

`update()` chooses the command by `onlyValueChanged`, and so does the writer the form of the body: they agree.  The
answer to `INITIALIZE` is sent as `UPDATE`, but the writer takes the short form all the same for a parameter of which
only the value has changed.  `agrees_emissions_iff` says exactly when command and body agree.
-/

namespace RabbitControl

open Lib

/-- An `UPDATE` packet has the full form of a parameter, an `UPDATEVALUE` packet the short one. -/
def Message.agrees (m : Message) : Bool :=
  match m.command, m.data with
  | .update, .parameter b => b.isFull
  | .updateValue, .parameter b => !b.isFull
  | _, _ => true

namespace Parameter

variable {p : Parameter} {idOf : Ref → Id}

/-- The changed options that are present are the value and no other. -/
def LeavesOnlyValue (p : Parameter) : Prop :=
  (p.changed .value = true ∧ (p.observe .value).isSome) ∧
    ∀ o, p.changed o = true → (p.observe o).isSome → o = .value

/-- A full write leaves only a changed value exactly if the value is the only option both changed and present, as the
change flags of absent options are taken down. -/
theorem leavesOnlyValue_iff (idOf : Ref → Id) (h : p.onlyValueChanged = false) :
    (p.write idOf true).2.onlyValueChanged = true ↔ p.LeavesOnlyValue := by
  rw [onlyValueChanged_iff, write_of_not_onlyValueChanged _ h]
  simp only [changed_writeFull_true, Bool.and_eq_true, and_imp, LeavesOnlyValue]

/-- A second full write changes nothing, unless the first one leaves only a changed value. -/
theorem write_full_idem (h : p.onlyValueChanged = false) (h' : ¬p.LeavesOnlyValue) :
    ((p.write idOf true).2.write idOf true).2 = (p.write idOf true).2 := by
  rw [← leavesOnlyValue_iff idOf h, Bool.not_eq_true] at h'
  rw [write_of_not_onlyValueChanged _ h']
  refine writeFull_true_eq fun o ho => ?_
  rw [observe_write]
  rw [write_of_not_onlyValueChanged _ h, changed_writeFull_true, Bool.and_eq_true] at ho
  exact ho.2

/-- What a full write leaves does not leave only a value in turn. -/
theorem not_leavesOnlyValue_write (h : p.onlyValueChanged = false) (h' : ¬p.LeavesOnlyValue) :
    ¬(p.write idOf true).2.LeavesOnlyValue := by
  have hfalse := h'
  rw [← leavesOnlyValue_iff idOf h, Bool.not_eq_true] at hfalse
  rw [← leavesOnlyValue_iff idOf hfalse, write_full_idem h h', hfalse]
  decide

end Parameter

namespace Store

variable {s : Store} {r : Ref}

theorem agrees_packet (s : Store) (r : Ref) : (s.packet r).agrees = true := by
  have h : ((s.heap r).write s.idOf false).1.isFull = !(s.heap r).onlyValueChanged := Parameter.isFull_write false
  unfold packet Message.agrees
  cases hv : (s.heap r).onlyValueChanged <;> simp [h, hv]

/-- The packets of the parameters that are written as `UPDATE` one after the other. -/
theorem agrees_writeDirty (l : List Ref) (s : Store) : ∀ m ∈ (writeDirty l s).1, m.agrees = true := by
  induction l generalizing s with
  | nil => simp [writeDirty]
  | cons r l ih =>
    rw [writeDirty, List.forall_mem_cons]
    exact ⟨agrees_packet s r, ih _⟩

/-- A list of parameters is sent in full exactly if none of them has only its value changed, and none that occurs
again is left with only its value changed when it has been written. -/
theorem agrees_writeFull_iff (l : List Ref) (s : Store) :
    (∀ m ∈ (writeFull l s).1, m.agrees = true) ↔
      ∀ r ∈ l, (s.heap r).onlyValueChanged = false ∧
        (1 < l.count r → ¬(s.heap r).LeavesOnlyValue) := by
  induction l generalizing s with
  | nil => simp [writeFull]
  | cons r l ih =>
    have hfirst : (⟨.update, .parameter ((s.heap r).write s.idOf true).1⟩ : Message).agrees =
        !(s.heap r).onlyValueChanged := Parameter.isFull_write true
    rw [writeFull, List.forall_mem_cons, ih, hfirst, Bool.not_eq_true']
    constructor
    · rintro ⟨hr, hl⟩ x hx
      by_cases hxr : x = r
      · subst hxr
        refine ⟨hr, fun hc => ?_⟩
        rw [List.count_cons_self] at hc
        have hxl := (hl x (List.count_pos_iff.mp (by omega))).1
        simp only [put, if_true] at hxl
        rw [← Parameter.leavesOnlyValue_iff s.idOf hr, hxl]
        decide
      · have hxl : x ∈ l := (List.mem_cons.mp hx).resolve_left hxr
        have h := hl x hxl
        rw [List.count_cons_of_ne (Ne.symm hxr)]
        simpa [put, hxr] using h
    · intro h
      obtain ⟨hr, hr'⟩ := h r (List.mem_cons_self ..)
      refine ⟨hr, fun x hx => ?_⟩
      have hx' := h x (List.mem_cons_of_mem _ hx)
      by_cases hxr : x = r
      · subst hxr
        have hagain := hr' (by rw [List.count_cons_self]; have := List.count_pos_iff.mpr hx; omega)
        simp only [put, if_true]
        refine ⟨?_, fun _ => Parameter.not_leavesOnlyValue_write hr hagain⟩
        rwa [← Parameter.leavesOnlyValue_iff s.idOf hr, Bool.not_eq_true] at hagain
      · rw [List.count_cons_of_ne (Ne.symm hxr)] at hx'
        simpa [put, hxr] using hx'

/-- The parameters that are sent in answer to `INITIALIZE`, up to a depth. -/
def visited (depth : Nat) (s : Store) : List Ref :=
  (concatWhile (preorder s.childRefs depth) (s.childRefs root)).1

end Store

namespace Server

variable {s : Server}

/-- The packets of `update()` agree in any state. -/
theorem agrees_update (s : Server) : ∀ m ∈ s.update.1, m.agrees = true := by
  rw [update]
  split
  · simp
  · dsimp only
    rw [List.forall_mem_append]
    refine ⟨fun m hm => ?_, Store.agrees_writeDirty _ _⟩
    obtain ⟨e, -, rfl⟩ := List.mem_map.mp hm
    rfl

/-- The call does not answer `INITIALIZE`, or no parameter that it visits has only its value changed, and none that it
visits again has the value as its only option both changed and present. -/
def SentInFull (s : Server) : Call → Prop
  | .receive depth ch data =>
    IsInit data → (s.store.parse ch data).verdict = .accepted → ∀ r ∈ s.store.visited depth,
      (s.store.heap r).onlyValueChanged = false ∧
        (1 < (s.store.visited depth).count r → ¬(s.store.heap r).LeavesOnlyValue)
  | _ => True

/-- What one call makes the server write agrees exactly if the call sends its parameters in full. -/
theorem agrees_emitted_iff (s : Server) (c : Call) : (∀ m ∈ s.emitted c, m.agrees = true) ↔ s.SentInFull c := by
  cases c with
  | update => exact iff_of_true s.agrees_update trivial
  | receive depth ch data =>
    rw [emitted, SentInFull]
    by_cases hi : IsInit data
    · rw [received_of_init hi]
      by_cases hv : (s.store.parse ch data).verdict = .accepted
      · rw [if_pos hv]
        dsimp only
        rw [sendAll_eq]
        simp only [hi, hv, forall_const]
        exact Store.agrees_writeFull_iff _ _
      · rw [if_neg hv]
        simp [hv]
    · refine iff_of_true (fun m hm => ?_) fun h => absurd h hi
      rw [Message.agrees, replies_received hi m hm]
  | _ => simp [emitted, SentInFull]

/-- In every run the packets of the server agree exactly if every call of the run sends its parameters in full. -/
theorem agrees_emissions_iff (s : Server) (cs : List Call) :
    (∀ m ∈ s.emissions cs, m.agrees = true) ↔ Along call SentInFull s cs := by
  induction cs generalizing s with
  | nil => simp [emissions, Along]
  | cons c cs ih => rw [emissions, List.forall_mem_append, agrees_emitted_iff, ih, Along]

/-- A boolean parameter that has been sent gets a new value, and a client joins. -/
def pendingChange : List Call :=
  [.create {} .createBooleanParameter [] root, .update, .set 1 (.setValue (τ := .boolean) true),
    .receive 2 ⟨{}, fun _ => 0⟩ [2, 0]]

theorem pendingChange_disagrees : ¬∀ m ∈ (start {} [0]).emissions pendingChange, m.agrees = true := by
  decide

end Server

end RabbitControl

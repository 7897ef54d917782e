import RabbitControl.CommandForm
import RabbitControl.PacketId
import RabbitControl.UpdateLemmas

/-!
# The cache of a client

Which parameters a client adds to its cache and removes from it.
-/

namespace RabbitControl

open Lib

namespace Store

variable {s : Store} {r : Ref}

/-- An update of a cached id adds nothing. -/
theorem params_applyUpdate (hr : s.idOf r ∈ s.params) :
    (Client.applyUpdate r s).params = s.params ∧ (Client.applyUpdate r s).next = s.next := by
  have hadd : s.addParameter r = s := by rw [addParameter, if_pos hr]
  unfold Client.applyUpdate
  split
  · split
    · have h := touched_update s (by assumption) r
      exact ⟨h.params, h.frame.next⟩
    · rw [hadd]; exact ⟨rfl, rfl⟩
  · rw [hadd]; exact ⟨rfl, rfl⟩

theorem params_addParameter (h : s.idOf r ∉ s.params) :
    (s.addParameter r).params = s.params.insert (s.idOf r) r ∧ (s.addParameter r).next = s.next := by
  rw [addParameter, if_neg h]
  dsimp only
  set t := (({ s with ids := insert (s.idOf r) s.ids } : Store).modify r fun p => { p with managed := true }) with ht
  have hid : t.idOf r = s.idOf r := by
    rw [ht]
    simp [modify, put, Store.idOf]
  cases (t.heap r).parent with
  | none => exact ⟨by dsimp only; rw [hid]; rfl, rfl⟩
  | some g =>
    have htouch := touched_addChild t g r
    refine ⟨?_, htouch.frame.next⟩
    dsimp only
    rw [htouch.frame.idOf, hid, htouch.params]
    rfl

/-- A removal takes parameters away only. -/
theorem params_removeParameterDirect (n : Nat) (s : Store) (r : Ref) :
    (removeParameterDirect n r s).next = s.next ∧
      ∀ {id : Id} {x : Ref}, (removeParameterDirect n r s).params[id]? = some x → s.params[id]? = some x := by
  refine removeParameterDirect_invariant
    (P := fun t => t.next = s.next ∧ ∀ {id : Id} {x : Ref}, t.params[id]? = some x → s.params[id]? = some x)
    (Q := fun _ => True) (fun {t y} ht _ _ => ?_) (fun _ _ _ _ => trivial) n ⟨rfl, fun h => h⟩ trivial
  refine ⟨(frame_unlink t y).next.trans ht.1, fun hx => ht.2 ?_⟩
  rw [getElem?_params_unlink] at hx
  split at hx
  · simp at hx
  · exact hx

end Store

end RabbitControl

import RabbitControl.Lib.Star

/-!
# The two ends of a link

Two ends hold copies of one value, which need not be there at first, and pass changes on through queues that deliver in
order.  Either end may change by itself, flush what it has marked as changed, take over what has arrived, and take over
and pass on what has come to it by another way.  What an end takes over need not be marked if the end had the value
already or had none.

`Link.Converging` is an invariant of all steps (`converging_step`), by which the ends agree once nothing is left to send
or to deliver.
-/

namespace Lib

variable {α : Type}

/-! ### Changes of an end -/

namespace Cell

/-- The value stays, and what is marked stays so. -/
structure Keeps (c d : Cell (Option α)) : Prop where
  value : d.value = c.value
  changed : c.changed = true → d.changed = true

/-- The value stays, or the change is marked.  A value is not taken away. -/
structure Moves (c d : Cell (Option α)) : Prop where
  marked : Keeps c d ∨ d.changed = true
  kept : d.value = none → c.value = none

/-- The value `v` is taken over.  It may stay unmarked if it is not new, or the first one. -/
structure Takes (v : α) (c d : Cell (Option α)) : Prop where
  value : d.value = some v
  marked : d.changed = true ∨ c.changed = false ∧ ∀ u ∈ c.value, u = v

/-- A value is taken over if there is one to hear of. -/
def Hears : Option α → Cell (Option α) → Cell (Option α) → Prop
  | some v => Takes v
  | none => Keeps

variable {c d e : Cell (Option α)} {v w : α}

theorem Keeps.refl (c : Cell (Option α)) : c.Keeps c := ⟨rfl, id⟩

theorem Keeps.trans (h : c.Keeps d) (k : d.Keeps e) : c.Keeps e :=
  ⟨k.value.trans h.value, fun hc => k.changed (h.changed hc)⟩

theorem Keeps.moves (h : c.Keeps d) : c.Moves d := ⟨Or.inl h, fun hd => h.value.symm.trans hd⟩

theorem Keeps.takes (h : c.Keeps d) (k : Takes v d e) : Takes v c e := by
  refine ⟨k.value, k.marked.imp_right fun hd => ⟨?_, by rw [← h.value]; exact hd.2⟩⟩
  cases hc : c.changed with
  | false => rfl
  | true => exact absurd ((h.changed hc).symm.trans hd.1) (by simp)

theorem Takes.keeps (h : Takes v c d) (k : d.Keeps e) : Takes v c e :=
  ⟨k.value.trans h.value, h.marked.imp_left k.changed⟩

theorem Takes.trans (h : Takes v c d) (k : Takes w d e) : Takes w c e := by
  refine ⟨k.value, ?_⟩
  rcases k.marked with hmarked | ⟨hd, hw⟩
  · exact Or.inl hmarked
  · obtain rfl := hw v (by rw [h.value]; rfl)
    exact Or.inr (h.marked.resolve_left (by rw [hd]; simp))

/-- What is heard last is taken over. -/
theorem Hears.trans {v w : Option α} (h : Hears v c d) (k : Hears w d e) : Hears (w.or v) c e := by
  cases v with
  | none =>
    cases w with
    | none => exact Keeps.trans h k
    | some w => exact Keeps.takes h k
  | some v =>
    cases w with
    | none => exact Takes.keeps h k
    | some w => exact Takes.trans h k

end Cell

/-! ### Links -/

/-- The values in `out` are on their way from the near end to the far one, those in `back` come from there, the oldest
first. -/
structure Link (α : Type) where
  near : Cell (Option α)
  far : Cell (Option α)
  out : List α := []
  back : List α := []

namespace Link

/-- The same link, seen from the other end. -/
def swap (l : Link α) : Link α := ⟨l.far, l.near, l.back, l.out⟩

inductive Step : Link α → Link α → Prop
  | move {l : Link α} {c : Cell (Option α)} (h : l.near.Moves c) : Step l { l with near := c }
  | flush {l : Link α} :
      Step l { l with
        near := ⟨l.near.value, false⟩
        out := l.out ++ if l.near.changed then l.near.value.toList else [] }
  | take {l : Link α} {v : α} {rest : List α} {c : Cell (Option α)} (hback : l.back = v :: rest)
      (h : Cell.Takes v l.near c) : Step l { l with near := c, back := rest }
  | relay {l : Link α} {v : α} {c : Cell (Option α)} (h : Cell.Takes v l.near c) :
      Step l { l with near := c, out := l.out ++ [v] }
  | swap {l m : Link α} (h : Step l m) : Step l.swap m.swap

variable {l m : Link α}

theorem Step.refl (l : Link α) : Step l l := .move (c := l.near) (Cell.Keeps.refl l.near).moves

/-! ### Convergence -/

/-- What holds of one end: if it is unmarked then it has sent its value last; if it has no value then it has sent none,
and if the other end has one then this is still to come. -/
structure Half (l : Link α) : Prop where
  last : l.near.changed = true ∨ ∀ v ∈ l.out.getLast?, l.near.value = some v
  absent : l.near.value = none → l.out = [] ∧ (l.far.value = none ∨ l.far.changed = true ∨ l.back ≠ [])

structure Converging (l : Link α) : Prop where
  near : Half l
  far : Half l.swap
  agree : l.near.changed = false → l.out = [] → l.far.changed = false → l.back = [] → l.near.value = l.far.value

theorem Converging.swap (h : Converging l) : Converging l.swap :=
  ⟨h.far, h.near, fun hn ho hf hb => (h.agree hf hb hn ho).symm⟩

/-- Ends that have the same value and nothing on its way. -/
theorem converging_of_eq (h : l.near.value = l.far.value) (ho : l.out = []) (hb : l.back = []) : Converging l := by
  refine ⟨⟨Or.inr (by simp [ho]), fun hn => ⟨ho, Or.inl (h.symm.trans hn)⟩⟩,
    ⟨Or.inr (by simp [swap, hb]), fun hf => ⟨hb, Or.inl (h.trans hf)⟩⟩, fun _ _ _ _ => h⟩

private theorem converging_move (hl : Converging l) {c : Cell (Option α)} (h : l.near.Moves c) :
    Converging { l with near := c } := by
  refine ⟨⟨?_, fun hc => hl.near.absent (h.kept hc)⟩, ⟨hl.far.last, fun hf => ⟨(hl.far.absent hf).1, ?_⟩⟩,
    fun hc ho hf hb => ?_⟩
  · rcases h.marked with hk | hc
    · rcases hl.near.last with hn | hn
      · exact Or.inl (hk.changed hn)
      · exact Or.inr fun v hv => hk.value.trans (hn v hv)
    · exact Or.inl hc
  · rcases h.marked with hk | hc
    · exact (hl.far.absent hf).2.imp hk.value.trans (Or.imp_left hk.changed)
    · exact Or.inr (Or.inl hc)
  · have hk := h.marked.resolve_right (by simp [show c.changed = false from hc])
    have hn : l.near.changed = false := by
      cases hn : l.near.changed with
      | false => rfl
      | true => exact absurd ((hk.changed hn).symm.trans hc) (by simp)
    exact hk.value.trans (hl.agree hn ho hf hb)

private theorem converging_flush (hl : Converging l) :
    Converging { l with
      near := ⟨l.near.value, false⟩
      out := l.out ++ if l.near.changed then l.near.value.toList else [] } := by
  cases hc : l.near.changed with
  | false =>
    have hsame : (⟨l.near.value, false⟩ : Cell (Option α)) = l.near := by rw [← hc]
    simpa [hsame] using hl
  | true =>
    cases hv : l.near.value with
    | none =>
      obtain ⟨hout, hfar⟩ := hl.near.absent hv
      refine ⟨⟨Or.inr (by simp [hout]), fun _ => ⟨by simp [hout], hfar⟩⟩,
        ⟨hl.far.last, fun hf => ⟨(hl.far.absent hf).1, Or.inl rfl⟩⟩, fun _ _ hf hb => ?_⟩
      exact (hfar.resolve_right (by simp [show l.far.changed = false from hf, show l.back = [] from hb])).symm
    | some v =>
      refine ⟨⟨Or.inr (by simp), fun hn => absurd hn (by simp)⟩,
        ⟨hl.far.last, fun hf => ⟨(hl.far.absent hf).1, Or.inr (Or.inr (by simp [swap]))⟩⟩, fun _ ho => ?_⟩
      simp at ho

private theorem converging_take (hl : Converging l) {v : α} {rest : List α} {c : Cell (Option α)}
    (hback : l.back = v :: rest) (h : Cell.Takes v l.near c) : Converging { l with near := c, back := rest } := by
  refine ⟨⟨?_, fun hc => absurd (h.value.symm.trans hc) (by simp)⟩, ⟨?_, fun hf => ?_⟩, fun hc ho hf hb => ?_⟩
  · rcases h.marked with hc | ⟨hn, hv⟩
    · exact Or.inl hc
    · refine Or.inr fun w hw => ?_
      have hlast := hl.near.last.resolve_left (by simp [hn]) w hw
      rw [← hv w hlast] at h
      exact h.value
  · refine hl.far.last.imp_right fun hlast w hw => hlast w ?_
    change w ∈ l.back.getLast?
    rw [hback]
    exact List.mem_getLast?_cons hw
  · exact absurd (hback.symm.trans (hl.far.absent hf).1) (by simp)
  · -- the last value of an unmarked far end has arrived
    have hlast := hl.far.last.resolve_left (by simp [swap, show l.far.changed = false from hf]) v
      (by simp [swap, hback, show rest = [] from hb])
    exact h.value.trans hlast.symm

private theorem converging_relay (hl : Converging l) {v : α} {c : Cell (Option α)} (h : Cell.Takes v l.near c) :
    Converging { l with near := c, out := l.out ++ [v] } := by
  refine ⟨⟨Or.inr fun w hw => ?_, fun hc => absurd (h.value.symm.trans hc) (by simp)⟩,
    ⟨hl.far.last, fun hf => ⟨(hl.far.absent hf).1, Or.inr (Or.inr (by simp [swap]))⟩⟩, fun _ ho => ?_⟩
  · rw [List.getLast?_concat, Option.mem_some] at hw
    rw [h.value, hw]
  · simp at ho

theorem converging_step (h : Step l m) (hl : Converging l) : Converging m := by
  induction h with
  | move h => exact converging_move hl h
  | flush => exact converging_flush hl
  | take hback h => exact converging_take hl hback h
  | relay h => exact converging_relay hl h
  | swap _ ih => exact (ih hl.swap).swap

end Link

end Lib

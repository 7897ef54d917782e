import RabbitControl.Lib.Run

/-!
# One value in a star

A hub and its leaves each hold a copy of one value and pass changes on through queues that deliver in order.  Everyone
flushes its own changes; what arrives is assigned like a local change, and the hub also relays it to the other leaves.

`Star.Converging` is an invariant of all runs, by which all copies agree once nothing is left to send or to deliver.
`Star.Echoless` is an invariant of the runs without local changes at the leaves in which nothing stale is sent back.
-/

namespace Lib

variable {ι α : Type}

/-- A value, and whether it has changed since it was last sent. -/
structure Cell (α : Type) where
  value : α
  changed : Bool := false

/-- An equal value is not a change. -/
def Cell.assign [DecidableEq α] (v : α) (c : Cell α) : Cell α := if c.value = v then c else ⟨v, true⟩

section Assign

variable [DecidableEq α] {v : α} {c : Cell α}

@[simp] theorem Cell.value_assign : (c.assign v).value = v := by
  unfold assign
  split
  · assumption
  · rfl

theorem Cell.assign_cases (v : α) (c : Cell α) : c.value = v ∧ c.assign v = c ∨ (c.assign v).changed = true := by
  unfold assign
  split
  · next h => exact Or.inl ⟨h, rfl⟩
  · exact Or.inr rfl

end Assign

/-- The copies, and the values on their way to the hub (`up`) and from it (`down`), the oldest first. -/
structure Star (ι α : Type) where
  hub : Cell α
  leaf : ι → Cell α
  up : ι → List α := fun _ => []
  down : ι → List α := fun _ => []

namespace Star

inductive Action (ι α : Type)
  | assignHub (v : α)
  | flushHub
  | assignLeaf (i : ι) (v : α)
  | flushLeaf (i : ι)
  | arriveHub (i : ι)
  | arriveLeaf (i : ι)

variable [DecidableEq ι] [DecidableEq α]

def step (s : Star ι α) : Action ι α → Star ι α
  | .assignHub v => { s with hub := s.hub.assign v }
  | .flushHub =>
    if s.hub.changed then
      { s with hub := ⟨s.hub.value, false⟩, down := fun i => s.down i ++ [s.hub.value] }
    else s
  | .assignLeaf i v => { s with leaf := Function.update s.leaf i ((s.leaf i).assign v) }
  | .flushLeaf i =>
    if (s.leaf i).changed then
      { s with
        leaf := Function.update s.leaf i ⟨(s.leaf i).value, false⟩
        up := Function.update s.up i (s.up i ++ [(s.leaf i).value]) }
    else s
  | .arriveHub i =>
    match s.up i with
    | [] => s
    | v :: rest =>
      { s with
        hub := s.hub.assign v
        up := Function.update s.up i rest
        down := fun j => if j = i then s.down j else s.down j ++ [v] }
  | .arriveLeaf i =>
    match s.down i with
    | [] => s
    | v :: rest =>
      { s with
        leaf := Function.update s.leaf i ((s.leaf i).assign v)
        down := Function.update s.down i rest }

variable {s : Star ι α} {a : Action ι α} {v : α} {i j : ι}

/-! ### Convergence -/

/-- Between the hub and one leaf: an unchanged hub has sent its value last, an unchanged leaf has, and if neither has
anything to send and nothing is on its way then they agree. -/
structure Converging (s : Star ι α) : Prop where
  down : ∀ i, s.hub.changed = true ∨ ∀ v ∈ (s.down i).getLast?, v = s.hub.value
  up : ∀ i, (s.leaf i).changed = true ∨ ∀ v ∈ (s.up i).getLast?, v = (s.leaf i).value
  agree : ∀ i, s.hub.changed = false → s.down i = [] → (s.leaf i).changed = false → s.up i = [] →
    (s.leaf i).value = s.hub.value

theorem converging_assignHub (hs : Converging s) (v : α) : Converging (s.step (.assignHub v)) := by
  rcases s.hub.assign_cases v with ⟨-, h⟩ | h
  · rw [step, h]
    exact hs
  · refine ⟨fun i => Or.inl h, hs.up, fun i hc => ?_⟩
    exact absurd (h.symm.trans hc) (by simp)

theorem converging_flushHub (hs : Converging s) : Converging (s.step .flushHub) := by
  rw [step]
  split
  · refine ⟨fun i => Or.inr fun v hv => ?_, hs.up, fun i _ hd => ?_⟩
    · rw [List.getLast?_concat, Option.mem_some] at hv
      exact hv.symm
    · simp at hd
  · exact hs

theorem converging_assignLeaf (hs : Converging s) (i : ι) (v : α) : Converging (s.step (.assignLeaf i v)) := by
  rw [step]
  rcases (s.leaf i).assign_cases v with ⟨-, h⟩ | h
  · rw [h, Function.update_eq_self]
    exact hs
  · refine ⟨hs.down, fun j => ?_, fun j hc hd hl hu => ?_⟩ <;> dsimp only at * <;> by_cases hj : j = i
    · subst hj
      exact Or.inl (by rw [Function.update_self]; exact h)
    · simpa [hj] using hs.up j
    · subst hj
      rw [Function.update_self, h] at hl
      simp at hl
    · simp only [ne_eq, hj, not_false_eq_true, Function.update_of_ne] at hl ⊢
      exact hs.agree j hc hd hl hu

theorem converging_flushLeaf (hs : Converging s) (i : ι) : Converging (s.step (.flushLeaf i)) := by
  rw [step]
  split
  · refine ⟨hs.down, fun j => ?_, fun j hc hd hl hu => ?_⟩ <;> dsimp only at * <;> by_cases hj : j = i
    · subst hj
      refine Or.inr fun v hv => ?_
      rw [Function.update_self, List.getLast?_concat, Option.mem_some] at hv
      rw [Function.update_self]
      exact hv.symm
    · simpa [hj] using hs.up j
    · subst hj
      simp at hu
    · simp only [ne_eq, hj, not_false_eq_true, Function.update_of_ne] at hl hu ⊢
      exact hs.agree j hc hd hl hu
  · exact hs

theorem converging_arriveHub (hs : Converging s) (i : ι) : Converging (s.step (.arriveHub i)) := by
  rw [step]
  split
  · exact hs
  next v rest hup =>
  have hlast : ∀ w ∈ rest.getLast?, w ∈ (s.up i).getLast? := fun w hw => hup ▸ List.mem_getLast?_cons hw
  have hups : ∀ j, (s.leaf j).changed = true ∨
      ∀ w ∈ (Function.update s.up i rest j).getLast?, w = (s.leaf j).value := by
    intro j
    by_cases hj : j = i
    · subst hj
      rw [Function.update_self]
      exact (hs.up j).imp_right fun h w hw => h w (hlast w hw)
    · rw [Function.update_of_ne hj]
      exact hs.up j
  rcases s.hub.assign_cases v with ⟨hv, h⟩ | h
  · rw [h]
    refine ⟨fun j => ?_, hups, fun j hc hd hl hu => ?_⟩ <;> dsimp only at * <;> by_cases hj : j = i
    · rw [if_pos hj]
      exact hs.down j
    · rw [if_neg hj]
      refine Or.inr fun w hw => ?_
      rw [List.getLast?_concat, Option.mem_some] at hw
      rw [← hw, hv]
    · -- the last value of an unchanged leaf has arrived
      subst hj
      rw [Function.update_self] at hu
      have hleaf := (hs.up j).resolve_left (by rw [hl]; simp) v (by rw [hup, hu]; rfl)
      rw [← hleaf, hv]
    · rw [if_neg hj] at hd
      simp at hd
  · refine ⟨fun j => Or.inl h, hups, fun j hc => ?_⟩
    exact absurd (h.symm.trans hc) (by simp)

theorem converging_arriveLeaf (hs : Converging s) (i : ι) : Converging (s.step (.arriveLeaf i)) := by
  rw [step]
  split
  · exact hs
  next v rest hdown =>
  have hdowns : ∀ j, s.hub.changed = true ∨ ∀ w ∈ (Function.update s.down i rest j).getLast?, w = s.hub.value := by
    intro j
    by_cases hj : j = i
    · subst hj
      rw [Function.update_self]
      exact (hs.down j).imp_right fun h w hw => h w (hdown ▸ List.mem_getLast?_cons hw)
    · rw [Function.update_of_ne hj]
      exact hs.down j
  rcases (s.leaf i).assign_cases v with ⟨hv, h⟩ | h
  · rw [h, Function.update_eq_self]
    refine ⟨hdowns, hs.up, fun j hc hd hl hu => ?_⟩
    by_cases hj : j = i
    · -- the last value of an unchanged hub has arrived
      subst hj
      change Function.update s.down j rest j = [] at hd
      rw [Function.update_self] at hd
      have hhub := (hs.down j).resolve_left (by rw [hc]; simp) v (by rw [hdown, hd]; rfl)
      rw [hv, ← hhub]
    · change Function.update s.down i rest j = [] at hd
      rw [Function.update_of_ne hj] at hd
      exact hs.agree j hc hd hl hu
  · refine ⟨hdowns, fun j => ?_, fun j hc hd hl hu => ?_⟩ <;> dsimp only at * <;> by_cases hj : j = i
    · subst hj
      rw [Function.update_self]
      exact Or.inl h
    · rw [Function.update_of_ne hj]
      exact hs.up j
    · subst hj
      rw [Function.update_self, h] at hl
      simp at hl
    · rw [Function.update_of_ne hj] at hd hl ⊢
      exact hs.agree j hc hd hl hu

theorem converging_step (hs : Converging s) (a : Action ι α) : Converging (s.step a) := by
  cases a with
  | assignHub v => exact converging_assignHub hs v
  | flushHub => exact converging_flushHub hs
  | assignLeaf i v => exact converging_assignLeaf hs i v
  | flushLeaf i => exact converging_flushLeaf hs i
  | arriveHub i => exact converging_arriveHub hs i
  | arriveLeaf i => exact converging_arriveLeaf hs i

theorem converging_run (hs : Converging s) (as : List (Action ι α)) : Converging (run step s as) :=
  run_invariant (I := Converging) (fun _ a hs => converging_step hs a) as hs

/-- Copies that agree and have nothing to send. -/
def agreed (v : α) : Star ι α := { hub := ⟨v, false⟩, leaf := fun _ => ⟨v, false⟩ }

omit [DecidableEq ι] [DecidableEq α] in
theorem converging_agreed (v : α) : Converging (agreed v : Star ι α) :=
  ⟨fun _ => Or.inr (by simp [agreed]), fun _ => Or.inr (by simp [agreed]), fun _ _ _ _ _ => rfl⟩

/-! ### Echoes -/

/-- What is on its way to the hub is the value of the hub. -/
def Echoless (s : Star ι α) : Prop := ∀ i, ∀ v ∈ s.up i, v = s.hub.value

/-- The hub takes a new value only if nothing is on its way to it, and a leaf, which takes no values of its own, sends
what it has received only while it is the value of the hub. -/
def NothingStale (s : Star ι α) : Action ι α → Prop
  | .assignHub v => v = s.hub.value ∨ ∀ i, s.up i = []
  | .assignLeaf .. => False
  | .flushLeaf i => (s.leaf i).changed = true → (s.leaf i).value = s.hub.value
  | .flushHub | .arriveHub _ | .arriveLeaf _ => True

/-- What the hub was last assigned, if that was `v` before. -/
def Action.assigned (v : α) : Action ι α → α
  | assignHub w => w
  | _ => v

/-- The value of the hub changes through its own assignments only. -/
theorem echoless_step (hs : Echoless s) (ha : NothingStale s a) :
    Echoless (s.step a) ∧ (s.step a).hub.value = a.assigned s.hub.value := by
  cases a with
  | assignHub v =>
    refine ⟨fun i w hw => ?_, Cell.value_assign⟩
    show w = (s.hub.assign v).value
    rw [Cell.value_assign]
    rcases ha with ha | ha
    · rw [ha]
      exact hs i w hw
    · rw [step, ha i] at hw
      simp at hw
  | flushHub =>
    rw [step]
    split
    · exact ⟨hs, rfl⟩
    · exact ⟨hs, rfl⟩
  | assignLeaf i v => exact ha.elim
  | flushLeaf i =>
    rw [step]
    split
    · next hc =>
      refine ⟨fun j w hw => ?_, rfl⟩
      change w ∈ Function.update s.up i (s.up i ++ [(s.leaf i).value]) j at hw
      by_cases hj : j = i
      · subst hj
        rw [Function.update_self, List.mem_append, List.mem_singleton] at hw
        rcases hw with hw | rfl
        · exact hs j w hw
        · exact ha hc
      · rw [Function.update_of_ne hj] at hw
        exact hs j w hw
    · exact ⟨hs, rfl⟩
  | arriveHub i =>
    rw [step]
    split
    · exact ⟨hs, rfl⟩
    · next v rest hup =>
      have hv : v = s.hub.value := hs i v (by rw [hup]; exact List.mem_cons_self ..)
      have hhub : s.hub.assign v = s.hub := by rw [Cell.assign, if_pos hv.symm]
      refine ⟨fun j w hw => ?_, congrArg Cell.value hhub⟩
      change w ∈ Function.update s.up i rest j at hw
      show w = (s.hub.assign v).value
      rw [hhub]
      by_cases hj : j = i
      · subst hj
        rw [Function.update_self] at hw
        exact hs j w (by rw [hup]; exact List.mem_cons_of_mem _ hw)
      · rw [Function.update_of_ne hj] at hw
        exact hs j w hw
  | arriveLeaf i =>
    rw [step]
    split
    · exact ⟨hs, rfl⟩
    · exact ⟨hs, rfl⟩

theorem echoless_run {as : List (Action ι α)} (h : Along step NothingStale s as) (hs : Echoless s) :
    Echoless (run step s as) ∧ (run step s as).hub.value = as.foldl (fun v a => a.assigned v) s.hub.value := by
  induction as generalizing s with
  | nil => exact ⟨hs, rfl⟩
  | cons a as ih =>
    obtain ⟨hstep, hvalue⟩ := echoless_step hs h.1
    obtain ⟨hrun, hlast⟩ := ih h.2 hstep
    refine ⟨hrun, ?_⟩
    rw [List.foldl_cons, ← hvalue]
    exact hlast

theorem value_arriveHub {rest : List α} (h : s.up i = v :: rest) : (s.step (.arriveHub i)).hub.value = v := by
  rw [step, h]
  exact Cell.value_assign

/-- The last value on its way from a leaf is that of the hub in the end. -/
theorem value_run_arriveHub {l : List α} (h : s.up i = l ++ [v]) :
    (run step s (List.replicate (l.length + 1) (.arriveHub i))).hub.value = v := by
  induction l generalizing s with
  | nil => exact value_arriveHub h
  | cons w l ih =>
    rw [List.length_cons, List.replicate_succ, run_cons]
    refine ih ?_
    rw [step, h, List.cons_append]
    exact Function.update_self ..

/-- After a step that is not allowed the hub may lose its value to what arrives from one leaf. -/
theorem stale_of_not (hs : Echoless s) (ha : ¬NothingStale s a) (hleaf : ∀ i v, a ≠ .assignLeaf i v) :
    ∃ i n, (run step (s.step a) (List.replicate n (.arriveHub i))).hub.value ≠ a.assigned s.hub.value := by
  cases a with
  | assignHub v =>
    simp only [NothingStale, not_or, not_forall] at ha
    obtain ⟨hv, i, hi⟩ := ha
    obtain ⟨w, rest, hup⟩ := List.exists_cons_of_ne_nil hi
    have hw : w = s.hub.value := hs i w (by rw [hup]; exact List.mem_cons_self ..)
    refine ⟨i, 1, fun h => hv ?_⟩
    rw [← hw]
    exact h.symm.trans (value_arriveHub (s := s.step (.assignHub v)) hup)
  | assignLeaf i v => exact absurd rfl (hleaf i v)
  | flushLeaf i =>
    simp only [NothingStale, Classical.not_imp] at ha
    obtain ⟨hc, hne⟩ := ha
    refine ⟨i, (s.up i).length + 1, fun h => hne ?_⟩
    have hup : (s.step (.flushLeaf i)).up i = s.up i ++ [(s.leaf i).value] := by
      rw [step, if_pos hc]
      exact Function.update_self ..
    rw [← value_run_arriveHub hup]
    exact h
  | flushHub | arriveHub | arriveLeaf => exact absurd trivial ha

end Star

end Lib

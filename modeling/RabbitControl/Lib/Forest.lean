import Mathlib

/-!
# Forests

Two views of a forest.  Upwards, a parent function: a node is rooted if its ancestors lead to the root, and giving a
node a new parent that is not below it keeps every node rooted (`rooted_update`).  Downwards, lists of children: a
traversal whose depth is bounded, and which stops for good when it hits the bound.  If the children lists are those
of a forest of bounded height, the traversal ends, visits what is below its start, nothing twice, and every node
after its parent.  In general it ends exactly if there is no endless descent (`exists_ended_iff`).

`IsTree` says that the two views agree on what lies below a root, and that this is finite; such a tree is traversed in
this way (`IsTree.exists_traversed`).
-/

namespace Lib

variable {ι : Type}

/-! ### Upwards -/

/-- The `n`-th ancestor. -/
def up (parent : ι → Option ι) : Nat → ι → Option ι
  | 0, x => some x
  | n + 1, x => (parent x).bind (up parent n)

/-- The root is an ancestor of the node. -/
def Rooted (parent : ι → Option ι) (root x : ι) : Prop := ∃ n, up parent n x = some root

/-- The node `a` is `x` or an ancestor of `x`. -/
def IsAncestor (parent : ι → Option ι) (a x : ι) : Prop := ∃ n, up parent n x = some a

section Up

variable {parent parent' : ι → Option ι} {root x y g : ι}

theorem up_succ_of_parent {n : Nat} (h : parent x = some y) : up parent (n + 1) x = up parent n y := by
  rw [up, h, Option.bind_some]

theorem Rooted.of_parent (h : parent x = some y) (hy : Rooted parent root y) : Rooted parent root x := by
  obtain ⟨n, hn⟩ := hy
  exact ⟨n + 1, by rw [up_succ_of_parent h, hn]⟩

theorem rooted_root : Rooted parent root root := ⟨0, rfl⟩

/-- The ancestors of a node depend on the parents of these ancestors only. -/
theorem up_congr {n : Nat} (h : ∀ k y, up parent k x = some y → parent' y = parent y) :
    up parent' n x = up parent n x := by
  induction n generalizing x with
  | zero => rfl
  | succ n ih =>
    rw [up, up, h 0 x rfl]
    cases hp : parent x with
    | none => rfl
    | some z =>
      rw [Option.bind_some, Option.bind_some]
      refine ih fun k y hk => h (k + 1) y ?_
      rw [up_succ_of_parent hp, hk]

/-- A new parent that does not lie below its child keeps every node rooted. -/
theorem rooted_update [DecidableEq ι] (hg : ¬IsAncestor parent x g) (hgr : Rooted parent root g)
    (hy : Rooted parent root y) : Rooted (Function.update parent x (some g)) root y := by
  have hg' : Rooted (Function.update parent x (some g)) root g := by
    obtain ⟨n, hn⟩ := hgr
    refine ⟨n, (up_congr fun k z hk => ?_).trans hn⟩
    exact Function.update_of_ne (fun hz : z = x => hg ⟨k, by rw [hk, hz]⟩) _ _
  obtain ⟨n, hn⟩ := hy
  induction n generalizing y with
  | zero => exact ⟨0, hn⟩
  | succ n ih =>
    by_cases hyx : y = x
    · subst hyx
      exact hg'.of_parent (Function.update_self ..)
    · cases hp : parent y with
      | none => rw [up, hp] at hn; simp at hn
      | some z =>
        rw [up_succ_of_parent hp] at hn
        exact (ih hn).of_parent (by rw [Function.update_of_ne hyx, hp])

open Classical in
/-- The number of steps to the root. -/
noncomputable def rootDistance (parent : ι → Option ι) (root x : ι) : Nat :=
  if h : Rooted parent root x then Nat.find h else 0

theorem rootDistance_of_parent (hx : x ≠ root) (h : parent x = some y) (hy : Rooted parent root y) :
    rootDistance parent root x = rootDistance parent root y + 1 := by
  classical
  have hxr : Rooted parent root x := hy.of_parent h
  rw [rootDistance, rootDistance, dif_pos hxr, dif_pos hy]
  refine (Nat.find_eq_iff (p := fun n => up parent n x = some root) hxr).mpr ?_
  refine ⟨?_, fun k hk hup => ?_⟩
  · rw [up_succ_of_parent h]
    exact Nat.find_spec hy
  · cases k with
    | zero => exact hx (Option.some.inj hup)
    | succ k =>
      rw [up_succ_of_parent h] at hup
      exact Nat.find_min hy (by omega) hup

end Up

/-! ### Downwards -/

/-- The results of `f` in a row, up to and with the first one that does not end. -/
def concatWhile (f : ι → List ι × Bool) : List ι → List ι × Bool
  | [] => ([], true)
  | c :: cs =>
    let a := f c
    if a.2 then
      let b := concatWhile f cs
      (a.1 ++ b.1, b.2)
    else a

/-- Depth-first traversal with a bound on the depth, and whether it ended without hitting the bound. -/
def preorder (children : ι → List ι) : Nat → ι → List ι × Bool
  | 0, _ => ([], false)
  | n + 1, x =>
    let a := concatWhile (preorder children n) (children x)
    (x :: a.1, a.2)

section Down

variable {children : ι → List ι} {f : ι → List ι × Bool} {x y c : ι} {cs : List ι}

theorem concatWhile_of_ended (h : ∀ c ∈ cs, (f c).2 = true) : concatWhile f cs = (cs.flatMap fun c => (f c).1, true) := by
  induction cs with
  | nil => rfl
  | cons c cs ih =>
    rw [concatWhile, h c (List.mem_cons_self ..), ih fun d hd => h d (List.mem_cons_of_mem _ hd)]
    rfl

theorem concatWhile_congr {f' : ι → List ι × Bool} (h : ∀ c ∈ cs, f' c = f c) : concatWhile f' cs = concatWhile f cs := by
  induction cs with
  | nil => rfl
  | cons c cs ih =>
    rw [concatWhile, concatWhile, h c (List.mem_cons_self ..), ih fun d hd => h d (List.mem_cons_of_mem _ hd)]

/-- If the row ended then all of it has been gone through. -/
theorem mem_concatWhile_of_ended (h : (concatWhile f cs).2 = true) (hc : c ∈ cs) :
    (f c).2 = true ∧ ∀ y ∈ (f c).1, y ∈ (concatWhile f cs).1 := by
  induction cs with
  | nil => simp at hc
  | cons d cs ih =>
    rw [concatWhile] at h ⊢
    dsimp only at h ⊢
    split at h
    · next hd =>
      rw [if_pos hd]
      rcases List.mem_cons.mp hc with rfl | hc
      · exact ⟨hd, fun y hy => List.mem_append_left _ hy⟩
      · obtain ⟨h1, h2⟩ := ih h hc
        exact ⟨h1, fun y hy => List.mem_append_right _ (h2 y hy)⟩
    · next hd => exact absurd h hd

theorem mem_concatWhile (h : y ∈ (concatWhile f cs).1) : ∃ c ∈ cs, y ∈ (f c).1 := by
  induction cs with
  | nil => simp [concatWhile] at h
  | cons c cs ih =>
    rw [concatWhile] at h
    dsimp only at h
    split at h
    · rcases List.mem_append.mp h with h | h
      · exact ⟨c, List.mem_cons_self .., h⟩
      · obtain ⟨d, hd, hy⟩ := ih h
        exact ⟨d, List.mem_cons_of_mem _ hd, hy⟩
    · exact ⟨c, List.mem_cons_self .., h⟩

/-- A traversal visits its start and children. -/
theorem mem_preorder {n : Nat} (h : y ∈ (preorder children n x).1) : y = x ∨ ∃ p, y ∈ children p := by
  induction n generalizing x with
  | zero => simp [preorder] at h
  | succ n ih =>
    rw [preorder] at h
    rcases List.mem_cons.mp h with h | h
    · exact Or.inl h
    · obtain ⟨c, hc, hy⟩ := mem_concatWhile h
      rcases ih hy with rfl | hy
      · exact Or.inr ⟨x, hc⟩
      · exact Or.inr hy

/-- A traversal depends on the children of the nodes that it may reach. -/
theorem preorder_congr {children' : ι → List ι} {S : ι → Prop} (heq : ∀ x, S x → children' x = children x)
    (hcl : ∀ x, S x → ∀ c ∈ children x, S c) (n : Nat) (hx : S x) : preorder children' n x = preorder children n x := by
  induction n generalizing x with
  | zero => rfl
  | succ n ih =>
    rw [preorder, preorder, heq x hx, concatWhile_congr fun c hc => ih (hcl x hx c hc)]

/-- A traversal that ended has visited its start. -/
theorem self_mem_preorder {n : Nat} (h : (preorder children n x).2 = true) : x ∈ (preorder children n x).1 := by
  cases n with
  | zero => simp [preorder] at h
  | succ n => exact List.mem_cons_self ..

/-- The traversal of a tree of height below the bound ends. -/
theorem preorder_ended {height : ι → Nat} (hh : ∀ x c, c ∈ children x → height c < height x) {n : Nat}
    (hn : height x < n) : (preorder children n x).2 = true := by
  induction n generalizing x with
  | zero => omega
  | succ n ih =>
    rw [preorder, concatWhile_of_ended fun c hc => ih (by have := hh x c hc; omega)]

theorem preorder_of_height {height : ι → Nat} (hh : ∀ x c, c ∈ children x → height c < height x) {n : Nat}
    (hn : height x < n + 1) :
    (preorder children (n + 1) x).1 = x :: (children x).flatMap fun c => (preorder children n c).1 := by
  rw [preorder, concatWhile_of_ended fun c hc => preorder_ended hh (by have := hh x c hc; omega)]

/-- A traversal that ended has found no endless descent. -/
theorem acc_of_preorder_ended {n : Nat} (h : (preorder children n x).2 = true) : Acc (fun c p => c ∈ children p) x := by
  induction n generalizing x with
  | zero => simp [preorder] at h
  | succ n ih =>
    rw [preorder] at h
    exact .intro x fun c hc => ih (mem_concatWhile_of_ended h hc).1

/-- If there is no endless descent, the traversal ends as soon as the bound is large enough. -/
theorem eventually_preorder_ended (h : Acc (fun c p => c ∈ children p) x) :
    ∀ᶠ n in Filter.atTop, (preorder children n x).2 = true := by
  induction h with
  | intro x _ ih =>
    have hall : ∀ᶠ n in Filter.atTop, ∀ c ∈ children x, (preorder children n c).2 = true :=
      (Filter.eventually_all_finite (children x).finite_toSet).mpr ih
    obtain ⟨m, hm⟩ := Filter.eventually_atTop.mp hall
    refine Filter.eventually_atTop.mpr ⟨m + 1, fun n hn => ?_⟩
    obtain ⟨k, rfl⟩ := Nat.exists_eq_add_of_lt hn
    rw [preorder, concatWhile_of_ended (hm (m + k) (Nat.le_add_right m k))]

/-- What lies below a node can be traversed exactly if there is no endless descent from it. -/
theorem exists_ended_iff :
    (∃ n, (concatWhile (preorder children n) (children x)).2 = true) ↔ Acc (fun c p => c ∈ children p) x := by
  constructor
  · rintro ⟨n, hn⟩
    exact .intro x fun c hc => acc_of_preorder_ended (mem_concatWhile_of_ended hn hc).1
  · intro h
    obtain ⟨n, hn⟩ := Filter.eventually_atTop.mp (eventually_preorder_ended h)
    have hend := hn (n + 1) (Nat.le_succ n)
    rw [preorder] at hend
    exact ⟨n, hend⟩

/-- The node `y` lies below `x`. -/
abbrev Below (children : ι → List ι) : ι → ι → Prop := Relation.ReflTransGen fun x c => c ∈ children x

/-- Two nodes above a third one are above each other, if no node has two parents. -/
private theorem below_or_below (huniq : ∀ {a b c}, c ∈ children a → c ∈ children b → a = b) {a b : ι}
    (ha : Below children a y) (hb : Below children b y) : Below children a b ∨ Below children b a := by
  induction ha with
  | refl => exact Or.inr hb
  | @tail p q hap hq ih =>
    rcases Relation.ReflTransGen.cases_tail hb with rfl | ⟨p', hbp, hq'⟩
    · exact Or.inl (hap.tail hq)
    · exact ih (huniq hq hq' ▸ hbp)

variable {height : ι → Nat} (hh : ∀ x c, c ∈ children x → height c < height x)

include hh

theorem height_le_of_below (h : Below children x y) : height y ≤ height x := by
  induction h with
  | refl => exact le_rfl
  | tail _ hc ih => have := hh _ _ hc; omega

/-- The traversal visits what lies below its start. -/
theorem mem_preorder_iff {n : Nat} (hn : height x < n) : y ∈ (preorder children n x).1 ↔ Below children x y := by
  induction n generalizing x with
  | zero => omega
  | succ n ih =>
    rw [preorder_of_height hh hn, List.mem_cons, List.mem_flatMap]
    constructor
    · rintro (rfl | ⟨c, hc, hy⟩)
      · exact .refl
      · exact .head hc ((ih (by have := hh x c hc; omega)).mp hy)
    · intro h
      rcases Relation.ReflTransGen.cases_head h with rfl | ⟨c, hc, hy⟩
      · exact Or.inl rfl
      · exact Or.inr ⟨c, hc, (ih (by have := hh x c hc; omega)).mpr hy⟩

/-- The traversal visits no node twice. -/
theorem nodup_preorder (hnd : ∀ x, (children x).Nodup)
    (huniq : ∀ {a b c}, c ∈ children a → c ∈ children b → a = b) {n : Nat} (hn : height x < n) :
    (preorder children n x).1.Nodup := by
  induction n generalizing x with
  | zero => omega
  | succ n ih =>
    have hc : ∀ c ∈ children x, height c < n := fun c hc => by have := hh x c hc; omega
    rw [preorder_of_height hh hn, List.nodup_cons, List.nodup_flatMap]
    refine ⟨?_, fun c hcx => ih (hc c hcx), ?_⟩
    · rw [List.mem_flatMap]
      rintro ⟨c, hcx, hx⟩
      have h1 := height_le_of_below hh ((mem_preorder_iff hh (hc c hcx)).mp hx)
      have h2 := hh x c hcx
      omega
    · refine (hnd x).imp_of_mem fun {a b} ha hb hab => ?_
      intro y hya hyb
      -- of two siblings none lies below the other
      have sibling : ∀ {a b}, a ∈ children x → b ∈ children x → a ≠ b → ¬Below children a b := by
        intro a b ha hb hne hab
        rcases Relation.ReflTransGen.cases_tail hab with h | ⟨p, hp, hbp⟩
        · exact hne h.symm
        · have h1 := height_le_of_below hh hp
          rw [huniq hbp hb] at h1
          have h2 := hh x a ha
          omega
      rcases below_or_below huniq ((mem_preorder_iff hh (hc a ha)).mp hya)
        ((mem_preorder_iff hh (hc b hb)).mp hyb) with h | h
      · exact sibling ha hb hab h
      · exact sibling hb ha (Ne.symm hab) h

/-- Every node but the first comes after a node of which it is a child. -/
theorem parent_first_preorder {n : Nat} (hn : height x < n) {l₁ l₂ : List ι}
    (h : (preorder children n x).1 = l₁ ++ y :: l₂) : y = x ∧ l₁ = [] ∨ ∃ p ∈ l₁, y ∈ children p := by
  induction n generalizing x l₁ l₂ with
  | zero => omega
  | succ n ih =>
    rw [preorder_of_height hh hn] at h
    cases l₁ with
    | nil => exact Or.inl ⟨(List.cons.inj h).1.symm, rfl⟩
    | cons z l₁ =>
      obtain ⟨rfl, htail⟩ := List.cons.inj h
      refine Or.inr ?_
      -- the piece of the list that `y` is in belongs to one child
      have piece : ∀ (cs l₁ : List ι), (∀ c ∈ cs, c ∈ children x) →
          cs.flatMap (fun c => (preorder children n c).1) = l₁ ++ y :: l₂ →
          y ∈ children x ∨ ∃ p ∈ l₁, y ∈ children p := by
        intro cs
        induction cs with
        | nil => intro l₁ _ h; simp at h
        | cons c cs ihc =>
          intro l₁ hcs h
          rw [List.flatMap_cons] at h
          rcases List.append_eq_append_iff.mp h with ⟨m, hm, hr⟩ | ⟨m, hm, hr⟩
          · rcases ihc m (fun d hd => hcs d (List.mem_cons_of_mem _ hd)) hr with hy | ⟨p, hp, hy⟩
            · exact Or.inl hy
            · exact Or.inr ⟨p, by rw [hm]; exact List.mem_append_right _ hp, hy⟩
          · cases m with
            | nil =>
              rw [List.nil_append] at hr
              rcases ihc [] (fun d hd => hcs d (List.mem_cons_of_mem _ hd)) (by rw [← hr]; rfl) with hy | ⟨p, hp, -⟩
              · exact Or.inl hy
              · simp at hp
            | cons w m =>
              obtain ⟨rfl, -⟩ := List.cons.inj hr
              have hcx := hcs c (List.mem_cons_self ..)
              rcases ih (by have := hh x c hcx; omega) hm with ⟨rfl, -⟩ | ⟨p, hp, hy⟩
              · exact Or.inl hcx
              · exact Or.inr ⟨p, hp, hy⟩
      rcases piece (children x) l₁ (fun _ h => h) htail with hy | ⟨p, hp, hy⟩
      · exact ⟨x, List.mem_cons_self .., hy⟩
      · exact ⟨p, List.mem_cons_of_mem _ hp, hy⟩

end Down

/-! ### Trees -/

/-- What lies below the root is a finite tree, in which the parents are those of the children lists. -/
structure IsTree (children : ι → List ι) (parent : ι → Option ι) (root : ι) : Prop where
  top : parent root = none
  parent : ∀ {g c}, Below children root g → c ∈ children g → parent c = some g
  nodup : ∀ {g}, Below children root g → (children g).Nodup
  finite : {x | Below children root x}.Finite

/-- The list of what lies below the root, each node once and after its parent. -/
structure Traversed (children : ι → List ι) (parent : ι → Option ι) (root : ι) (l : List ι) : Prop where
  nodup : l.Nodup
  mem : ∀ x, x ∈ l ↔ x ≠ root ∧ Below children root x
  parentFirst : ∀ l₁ x l₂, l = l₁ ++ x :: l₂ → ∃ g, parent x = some g ∧ (g = root ∨ g ∈ l₁)

section Tree

variable {children : ι → List ι} {parent : ι → Option ι} {root x c : ι}

/-- If every node is the parent of its children, a traversal that goes deeper than the root is high ends and visits the
tree. -/
theorem traversed_preorder {height : ι → Nat} (hh : ∀ x c, c ∈ children x → height c < height x)
    (hparent : ∀ {g c}, c ∈ children g → parent c = some g) (hnd : ∀ x, (children x).Nodup) {n : Nat}
    (hn : height root ≤ n) :
    ∃ l, concatWhile (preorder children n) (children root) = (l, true) ∧ Traversed children parent root l := by
  have hlt : height root < n + 1 := Nat.lt_succ_of_le hn
  set l := (concatWhile (preorder children n) (children root)).1 with hl
  have hsplit : (preorder children (n + 1) root).1 = root :: l := rfl
  have hended : (concatWhile (preorder children n) (children root)).2 = true := preorder_ended hh hlt
  have hvisited : ∀ x, x ∈ root :: l ↔ Below children root x := fun x => mem_preorder_iff hh hlt
  have honce : (root :: l).Nodup := by
    refine nodup_preorder hh hnd (fun {a b c} ha hb => ?_) hlt
    exact Option.some.inj ((hparent ha).symm.trans (hparent hb))
  rw [List.nodup_cons] at honce
  refine ⟨l, Prod.ext rfl hended, honce.2, fun x => ?_, fun l₁ x l₂ hx => ?_⟩
  · constructor
    · intro hx
      exact ⟨fun hr => honce.1 (hr ▸ hx), (hvisited x).mp (List.mem_cons_of_mem _ hx)⟩
    · rintro ⟨hr, hx⟩
      exact (List.mem_cons.mp ((hvisited x).mpr hx)).resolve_left hr
  · have hcut : (preorder children (n + 1) root).1 = (root :: l₁) ++ x :: l₂ := by rw [hsplit, hx]; rfl
    rcases parent_first_preorder hh hlt hcut with ⟨-, h0⟩ | ⟨g, hg, hc⟩
    · simp at h0
    · exact ⟨g, hparent hc, by simpa using hg⟩

namespace IsTree

variable (h : IsTree children parent root)

include h

theorem rooted (hx : Below children root x) : Rooted parent root x := by
  induction hx with
  | refl => exact rooted_root
  | tail hb hc ih => exact ih.of_parent (h.parent hb hc)

theorem ne_root (hx : Below children root x) (hc : c ∈ children x) : c ≠ root := fun hr => by
  have hp := h.parent hx hc
  rw [hr, h.top] at hp
  simp at hp

/-- A traversal that goes deep enough ends and visits the tree. -/
theorem exists_traversed :
    ∃ n₀, ∀ n, n₀ ≤ n → ∃ l, concatWhile (preorder children n) (children root) = (l, true) ∧
      Traversed children parent root l := by
  classical
  -- what does not lie below the root is cut off
  let kids := fun x => if Below children root x then children x else []
  have hkids : ∀ x, Below children root x → kids x = children x := fun x hx => if_pos hx
  have hmem : ∀ {x c}, c ∈ kids x → Below children root x ∧ c ∈ children x := by
    intro x c hc
    by_cases hx : Below children root x
    · exact ⟨hx, by rwa [hkids x hx] at hc⟩
    · rw [show kids x = [] from if_neg hx] at hc
      simp at hc
  have hclosed : ∀ x, Below children root x → ∀ c ∈ children x, Below children root c := fun _ hx _ hc => hx.tail hc
  have hbelow : ∀ {x}, Below kids root x ↔ Below children root x := by
    intro x
    constructor
    · intro hx
      induction hx with
      | refl => exact .refl
      | tail _ hc ih => exact ih.tail (hmem hc).2
    · intro hx
      induction hx with
      | refl => exact .refl
      | @tail b c hb hc ih => exact ih.tail (by rw [hkids b hb]; exact hc)
  -- the height of a node is counted from the largest distance to the root
  let top := h.finite.toFinset.sup (rootDistance parent root)
  let height := fun x => top + 1 - rootDistance parent root x
  have hheight : ∀ x c, c ∈ kids x → height c < height x := by
    intro x c hc
    obtain ⟨hx, hc⟩ := hmem hc
    have hd := rootDistance_of_parent (h.ne_root hx hc) (h.parent hx hc) (h.rooted hx)
    have hle : rootDistance parent root c ≤ top :=
      Finset.le_sup (f := rootDistance parent root) (h.finite.mem_toFinset.mpr (hx.tail hc))
    show top + 1 - rootDistance parent root c < top + 1 - rootDistance parent root x
    omega
  refine ⟨height root, fun n hn => ?_⟩
  have hkidsNodup : ∀ x, (kids x).Nodup := by
    intro x
    by_cases hx : Below children root x
    · rw [hkids x hx]; exact h.nodup hx
    · rw [show kids x = [] from if_neg hx]; exact List.nodup_nil
  have hparent : ∀ {g c}, c ∈ kids g → parent c = some g := fun hc => h.parent (hmem hc).1 (hmem hc).2
  obtain ⟨l, hl, ht⟩ := traversed_preorder hheight hparent hkidsNodup hn
  refine ⟨l, ?_, ht.nodup, fun x => (ht.mem x).trans (and_congr_right fun _ => hbelow), ht.parentFirst⟩
  have hroot : kids root = children root := hkids root .refl
  rw [← hl, hroot]
  exact concatWhile_congr fun c hc =>
    (preorder_congr (S := Below children root) hkids hclosed n (hclosed root .refl c hc)).symm

end IsTree

end Tree

end Lib

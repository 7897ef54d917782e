import RabbitControl.CommandForm
import RabbitControl.GroupTree

/-!
# The answer to `INITIALIZE`

In a tree the traversal of the children of groups ends, and it visits every parameter once and after its parent
(`transmits_of_tree`).  `stays_tree` gives this for every server whose parameters were created, after any sequence of
received packets none of which breaks the tree.
-/

namespace RabbitControl

open Lib

namespace Store

variable {s : Store} {r x g c : Ref}

/-! ### The children of groups -/

theorem mem_childRefs (hs : Linked s) : c ∈ s.childRefs g ↔ s.Live c ∧ s.parent c = some g := by
  rw [mem_childRefs_iff]
  constructor
  · rintro ⟨id, h⟩
    exact ⟨hs.child_live h, (hs.child h).2.1⟩
  · rintro ⟨hl, hp⟩
    exact ⟨_, hs.paired.parent hl hp⟩

theorem nodup_childRefs (hs : Cached s) (g : Ref) : (s.childRefs g).Nodup := by
  rw [childRefs, List.nodup_iff_pairwise_ne, List.pairwise_map]
  refine Std.ExtTreeMap.distinct_keys_toList.imp_of_mem fun {a b} ha hb hab => ?_
  rw [Std.ExtTreeMap.mem_toList_iff_getElem?_eq_some] at ha hb
  intro heq
  have hid := hs.idOf (hs.child ha).1
  rw [heq, hs.idOf (hs.child hb).1] at hid
  exact hab (by simp [hid])

/-- The distance to the root, counted from the largest one. -/
noncomputable def height (s : Store) (x : Ref) : Nat :=
  (Finset.range s.next).sup (rootDistance s.parent root) + 1 - rootDistance s.parent root x

theorem height_lt (hs : GroupTree s) (x c : Ref) (hc : c ∈ s.childRefs x) : s.height c < s.height x := by
  obtain ⟨hl, hp⟩ := (mem_childRefs hs.toLinked).mp hc
  have hx : Rooted s.parent root x := hs.rooted_held (hs.held hl hp)
  have hd := rootDistance_of_parent (hs.toCached.ne_root hs.rootId hl) hp hx
  have hle : rootDistance s.parent root c ≤ (Finset.range s.next).sup (rootDistance s.parent root) :=
    Finset.le_sup (f := rootDistance s.parent root) (Finset.mem_range.mpr (hs.built hl))
  rw [height, height]
  omega

/-- What lies below the root group are the parameters that the server holds. -/
theorem below_root_iff (hs : GroupTree s) : Below s.childRefs root r ↔ s.Held r := by
  constructor
  · intro h
    rcases Relation.ReflTransGen.cases_tail h with rfl | ⟨g, -, hg⟩
    · exact Or.inl rfl
    · exact Or.inr ((mem_childRefs hs.toLinked).mp hg).1
  · intro hr
    obtain ⟨n, hn⟩ := hs.rooted_held hr
    induction n generalizing r with
    | zero => rw [Option.some.inj hn]
    | succ n ih =>
      cases hp : s.parent r with
      | none => rw [up, hp] at hn; simp at hn
      | some g =>
        rw [up_succ_of_parent hp] at hn
        have hg := ih (hs.held_parent hr hp) hn
        have hl : s.Live r := hr.resolve_left fun h => by rw [h, hs.top] at hp; simp at hp
        exact hg.tail ((mem_childRefs hs.toLinked).mpr ⟨hl, hp⟩)

/-! ### The traversal -/

/-- With the bound `n` on its depth the answer to `INITIALIZE` comes to its end, sends every parameter once, and each
after its parent. -/
structure Transmits (s : Store) (n : Nat) : Prop where
  ended : (Server.sendAll n s).ended = true
  ids : (Server.sendAll n s).packets.map (·.data.parameterId) = (s.visited n).map fun r => some (s.idOf r)
  nodup : (s.visited n).Nodup
  mem : ∀ r, r ∈ s.visited n ↔ ∃ id : Id, s.params[id]? = some r
  parentFirst : ∀ l₁ r l₂, s.visited n = l₁ ++ r :: l₂ → ∃ g, s.parent r = some g ∧ (g = root ∨ g ∈ l₁)

theorem transmits_of_tree (hs : GroupTree s) {n : Nat} (hn : s.height root ≤ n) : s.Transmits n := by
  have hparent : ∀ {g c : Ref}, c ∈ s.childRefs g → s.parent c = some g :=
    fun hc => ((mem_childRefs hs.toLinked).mp hc).2
  obtain ⟨l, hl, ht⟩ := traversed_preorder (height_lt hs) hparent (nodup_childRefs hs.toCached) hn
  have hvisited : s.visited n = l := congrArg Prod.fst hl
  refine ⟨?_, ?_, ?_, fun r => ?_, ?_⟩
  · rw [Server.sendAll_eq]
    exact congrArg Prod.snd hl
  · rw [Server.sendAll_eq]
    exact ids_writeFull _ _
  · rw [hvisited]
    exact ht.nodup
  · rw [hvisited, ht.mem, below_root_iff hs, ← hs.live_iff]
    constructor
    · rintro ⟨hr, hx⟩
      exact hx.resolve_left hr
    · intro hx
      exact ⟨hs.toCached.ne_root hs.rootId hx, Or.inr hx⟩
  · rw [hvisited]
    exact ht.parentFirst

end Store

/-! ### Runs -/

namespace Server

open Store

/-- Creation in groups that the server holds, setters, `update()`, and packets of clients. -/
def InScope (s : Server) : Call → Prop
  | .create _ _ _ g => (s.store.heap g).isGroup = true ∧ s.store.Held g
  | .set .. | .update | .receive .. => True
  | .addChild .. | .removeParameter _ => False

/-- An accepted update does not put a parameter below itself, and a packet that is not accepted does not name two
parents one after the other while the first one has a child under the id of the packet. -/
def KeepsTree (s : Server) : Call → Prop
  | .receive _ ch data => ∀ q, (s.store.dryParse ch data).packet.bind Packet.parameter = some q →
    ((s.store.dryParse ch data).verdict = .accepted → ∀ x g, s.store.params[q.parameterId]? = some x →
      q.parent = some g → ¬IsAncestor s.store.parent x g) ∧
    ((s.store.dryParse ch data).verdict ≠ .accepted → ∀ g ∈ (s.store.dryParse ch data).state,
      q.parameterId ∉ s.store.children g)
  | _ => True

theorem tree_received {s : Server} (hs : GroupTree s.store) (depth : Nat) (ch : Chance) (data : Bytes)
    (hk : s.KeepsTree (.receive depth ch data)) : GroupTree (s.received depth ch data).server.store := by
  by_cases hi : IsInit data
  · rw [received_of_init hi]
    split
    · dsimp only
      rw [sendAll_eq]
      exact hs.congr (sameTree_writeFull _ _)
    · exact hs
  obtain ⟨hv, h⟩ := parse_cases hs.built ch data
  rcases h with ⟨hst, -, -, hp⟩ | ⟨c, time, p, q, hpk, hqk, -, h⟩
  · rw [(received_of_no_parameter hi fun _ => hp).1]
    show GroupTree (s.store.parse ch data).state
    rw [hst]
    exact hs
  · have hkq := hk q (by rw [hqk]; rfl)
    by_cases ha : (s.store.parse ch data).verdict = .accepted
    · rw [received_of_parameter ha (p := p) (by rw [hpk]; rfl)]
      exact tree_applyUpdate hs h fun x g hx hg => hkq.1 (by rw [← hv, ha]) x g hx hg
    · rw [(received_of_no_parameter hi fun hacc => absurd hacc ha).1]
      exact ⟨h.linked hs.toLinked (hkq.2 (by rwa [← hv])), h.hanging hs.toCached hs.toHanging⟩

theorem tree_call (s : Server) (c : Call) (hc : s.InScope c ∧ s.KeepsTree c) (hs : GroupTree s.store) :
    GroupTree (s.call c).store := by
  cases c with
  | create mem f label g =>
    rw [call]
    cases hcr : s.store.create mem f label g with
    | none => exact hs
    | some p => exact tree_create hs hc.1.1 hc.1.2 hcr
  | set r a => exact hs.congr (sameTree_set s.store r a)
  | update => exact hs.congr (sameTree_update s)
  | receive depth ch data => exact tree_received hs depth ch data hc.2
  | addChild g r => exact hc.1.elim
  | removeParameter id => exact hc.1.elim

theorem tree_start (mem : Memory) (ts : List Nat) : GroupTree (start mem ts).store := by
  rw [store_start]
  have hparams : (new mem).store.params = ∅ := by simp [new, Store.empty]
  have hlive : ∀ c, ¬(new mem).store.Live c := fun c h => by simp [Live, hparams] at h
  refine ⟨linked_new mem, ⟨⟨?_, fun hc => absurd hc (hlive _)⟩, ?_, ?_, fun hc => absurd hc (hlive _)⟩⟩
  · exact (frame_set (Store.empty mem) root (.label (.set rootLabel))).idOf root
  · exact parent_set (Store.empty mem) root (.label (.set rootLabel)) root
  · rw [next_new]
    exact Nat.one_pos

/-- After every run that keeps the tree, every parameter is reachable from the root group, no group is its own
descendant, and the answer to `INITIALIZE` ends and sends every parameter once and after its parent. -/
theorem stays_tree (mem : Memory) (ts : List Nat) (cs : List Call)
    (h : Along call (fun s c => s.InScope c ∧ s.KeepsTree c) (start mem ts) cs) :
    (∀ (id : Id) r, (run call (start mem ts) cs).store.params[id]? = some r →
        Below (run call (start mem ts) cs).store.childRefs root r) ∧
      (∀ g c, c ∈ (run call (start mem ts) cs).store.childRefs g →
        ¬Below (run call (start mem ts) cs).store.childRefs c g) ∧
      ∃ n₀, ∀ n, n₀ ≤ n → (run call (start mem ts) cs).store.Transmits n := by
  have ht : GroupTree (run call (start mem ts) cs).store :=
    along_invariant (I := fun s => GroupTree s.store) tree_call h (tree_start mem ts)
  refine ⟨fun id r hr => (below_root_iff ht).mpr (Or.inr (ht.live hr)), fun g c hc hb => ?_, _,
    fun n hn => transmits_of_tree ht hn⟩
  have h1 := height_lt ht g c hc
  have h2 := height_le_of_below (height_lt ht) hb
  omega

/-- A client moves a boolean parameter of the root group into another group. -/
def movedBelow : List Call :=
  [.create {} .createGroupParameter [] root, .create {} .createBooleanParameter [] root,
    .receive 0 ⟨{}, fun _ => 0⟩ [4, 18, 0, 2, 16, 0, 37, 0, 1, 0, 0]]

private theorem along_movedBelow :
    Along call (fun s c => s.InScope c ∧ s.KeepsTree c) (start {} []) movedBelow := by
  refine ⟨⟨⟨by decide, Or.inl rfl⟩, trivial⟩, ⟨⟨by decide, Or.inl rfl⟩, trivial⟩,
    ⟨trivial, fun q hq => ⟨fun _ x g hx hg => ?_, fun hv => absurd (by decide) hv⟩⟩, trivial⟩
  set s := call (call (start {} []) (.create {} .createGroupParameter [] root))
    (.create {} .createBooleanParameter [] root) with hs
  have hread : ((s.store.dryParse ⟨{}, fun _ => 0⟩ [4, 18, 0, 2, 16, 0, 37, 0, 1, 0, 0]).packet.bind
      Packet.parameter).map (fun q => (q.parameterId, q.parent)) = some (2, some 1) := by decide
  rw [hq, Option.map_some, Option.some.injEq, Prod.mk.injEq, hg, Option.some.injEq] at hread
  rw [hread.1] at hx
  obtain rfl : x = 2 := Option.some.inj (hx.symm.trans (by decide))
  rw [hread.2]
  rintro ⟨n, hn⟩
  -- above group `1` there is the root group only
  match n with
  | 0 => exact absurd (Option.some.inj hn) (by decide)
  | 1 => exact absurd hn (by decide)
  | n + 2 =>
    rw [up_succ_of_parent (show s.store.parent 1 = some root by decide), up, show s.store.parent root = none by decide]
      at hn
    simp at hn

theorem stays_tree_movedBelow :
    (∀ (id : Id) r, (run call (start {} []) movedBelow).store.params[id]? = some r →
        Below (run call (start {} []) movedBelow).store.childRefs root r) ∧
      (∀ g c, c ∈ (run call (start {} []) movedBelow).store.childRefs g →
        ¬Below (run call (start {} []) movedBelow).store.childRefs c g) ∧
      ∃ n₀, ∀ n, n₀ ≤ n → (run call (start {} []) movedBelow).store.Transmits n :=
  stays_tree {} [] movedBelow along_movedBelow

/-- A client names a group as its own parent. -/
def ownParent : List Call :=
  [.create {} .createGroupParameter [] root, .receive 0 ⟨{}, fun _ => 0⟩ [4, 18, 0, 1, 40, 0, 37, 0, 1, 0, 0]]

/-- The group is no longer reachable, and it is its own descendant. -/
theorem ownParent_no_tree :
    ¬(∀ (id : Id) r, (run call (start {} []) ownParent).store.params[id]? = some r →
        Below (run call (start {} []) ownParent).store.childRefs root r) ∧
      ¬(∀ g c, c ∈ (run call (start {} []) ownParent).store.childRefs g →
        ¬Below (run call (start {} []) ownParent).store.childRefs c g) := by
  constructor
  · intro h
    rcases Relation.ReflTransGen.cases_head (h 1 1 (by decide)) with h | ⟨c, hc, -⟩
    · exact absurd h (by decide)
    · have hnone : (run call (start {} []) ownParent).store.childRefs root = [] := by decide
      rw [hnone] at hc
      simp at hc
  · intro h
    exact h 1 1 (by decide) .refl

end Server

end RabbitControl

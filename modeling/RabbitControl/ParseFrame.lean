import RabbitControl.LocalParsers
import RabbitControl.Reuse

/-!
# What parsing does to the store

A parsed parameter is a proxy, and its `PARENTID` options make it leave one group for another.  Leaving goes by the
id, so it takes away the cached child that the proxy stands for.  The real parse is compared with the dry one, which
only writes down the groups that are left (`Sim`), and `parse_unchanged_iff` says that the store is unchanged exactly
if none of these groups has a child under the id of the packet.
-/

namespace RabbitControl

open Lib

/-- References are given out in order. -/
def Store.Allocated (s : Store) : Prop := ∀ {id : Id} {r : Ref}, s.params[id]? = some r → r < s.next

/-- The group is found under an id. -/
def Store.HasGroup (s : Store) (g : Ref) : Prop := ∃ id, s.getGroup id = some g

theorem Store.HasGroup.params {s : Store} {g : Ref} (h : s.HasGroup g) :
    (∃ id : Id, s.params[id]? = some g) ∧ (s.heap g).isGroup = true := by
  obtain ⟨id, hg⟩ := h
  unfold Store.getGroup at hg
  split at hg
  · next r hr =>
    split at hg
    · next hgr => rw [← Option.some.inj hg]; exact ⟨⟨id, hr⟩, hgr⟩
    · simp at hg
  · simp at hg

theorem Store.HasGroup.lt {s : Store} (hs : s.Allocated) {g : Ref} (h : s.HasGroup g) : g < s.next := by
  obtain ⟨⟨id, hr⟩, -⟩ := h.params
  exact hs hr

/-- The store `t` and the proxy `p` of a real parse beside the groups `l` left and the proxy `q` of a dry one: the
groups in `l` have lost the child that the proxy stands for. -/
structure Sim (s t : Store) (p : Parameter) (l : List Ref) (q : Parameter) : Prop where
  next : t.next = s.next
  ids : t.ids = s.ids
  params : t.params = s.params
  removed : t.removedParameter = s.removedParameter
  proxy : ∃ b, p = { q with parentChanged := b }
  parent : ∀ g, q.parent = some g → s.HasGroup g
  left : ∀ g ∈ l, s.HasGroup g
  stayed : q.parent = none → l = []
  childless : q.children = ∅
  heap : ∀ r, r ≠ s.next → t.heap r =
    if r ∈ l then (s.heap r).modifyChildren (·.erase q.parameterId) else s.heap r
  dirty : t.dirtyParameter = s.dirtyParameter ∨
    t.dirtyParameter = s.dirtyParameter.insert q.parameterId s.next ∧ ∃ g ∈ l, q.parameterId ∈ s.children g

namespace Sim

variable {s t : Store} {l : List Ref} {p q : Parameter} {g g' : Ref}

theorem refl {q : Parameter} (hq : q.parent = none) (hc : q.children = ∅) : Sim s s q [] q :=
  ⟨rfl, rfl, rfl, rfl, ⟨q.parentChanged, rfl⟩, by simp [hq], by simp, fun _ => rfl, hc, by simp, Or.inl rfl⟩

/-- An option of the proxy that has nothing to do with its id and its parent. -/
theorem update (h : Sim s t p l q) {f : Parameter → Parameter}
    (hf : ∀ p b, f { p with parentChanged := b } = { f p with parentChanged := b })
    (hi : ∀ p, (f p).parameterId = p.parameterId) (hp : ∀ p, (f p).parent = p.parent)
    (hc : ∀ p, p.children = ∅ → (f p).children = ∅) : Sim s t (f p) l (f q) := by
  obtain ⟨b, hb⟩ := h.proxy
  refine ⟨h.next, h.ids, h.params, h.removed, ⟨b, by rw [hb, hf]⟩, fun g hg => h.parent g (by rw [← hp]; exact hg),
    h.left, fun hq => h.stayed (by rw [← hp]; exact hq), hc q h.childless, ?_, ?_⟩
  · rw [hi]; exact h.heap
  · rw [hi]; exact h.dirty

theorem isGroup (h : Sim s t p l q) {r : Ref} (hr : r < s.next) : (t.heap r).isGroup = (s.heap r).isGroup := by
  rw [h.heap r (Nat.ne_of_lt hr)]
  split <;> simp

theorem idOf (h : Sim s t p l q) {r : Ref} (hr : r < s.next) : t.idOf r = s.idOf r := by
  rw [Store.idOf, h.heap r (Nat.ne_of_lt hr)]
  split
  · exact Parameter.parameterId_modifyChildren _
  · rfl

theorem getGroup (hs : s.Allocated) (h : Sim s t p l q) (id : Id) : t.getGroup id = s.getGroup id := by
  unfold Store.getGroup
  rw [h.params]
  cases hr : s.params[id]? with
  | none => rfl
  | some r => dsimp only; rw [h.isGroup (hs hr)]

/-- The proxy is given another group. -/
theorem enter (h : Sim s t p l q) (hg : s.HasGroup g) :
    Sim s t { p with parent := some g } l { q with parent := some g } := by
  obtain ⟨b, hb⟩ := h.proxy
  refine ⟨h.next, h.ids, h.params, h.removed, ⟨b, by rw [hb]⟩, fun g' hg' => ?_, h.left, fun hq => by simp at hq,
    h.childless, h.heap, h.dirty⟩
  rw [← Option.some.inj hg']; exact hg

/-- The groups left may have been left before; at first they had the child, if they have it now. -/
private theorem mem_children (h : Sim s t p l q) (hg : g ≠ s.next) (hm : q.parameterId ∈ t.children g) :
    q.parameterId ∈ s.children g := by
  rw [Store.children, h.heap g hg] at hm
  split at hm
  · rw [Parameter.children_modifyChildren_erase] at hm
    simp at hm
  · exact hm

/-- The proxy leaves a group. -/
theorem leave (hs : s.Allocated) (h : Sim s t p l q) (hg : s.HasGroup g) (hg' : s.HasGroup g') :
    Sim s (storeEnv.removeChild g (t, p)).1 { (storeEnv.removeChild g (t, p)).2 with parent := some g' }
      (l ++ [g]) { q with parent := some g' } := by
  obtain ⟨b, hb⟩ := h.proxy
  have hgn : g ≠ s.next := Nat.ne_of_lt (hg.lt hs)
  set u := t.put t.next p with hu
  have hn : t.next = s.next := h.next
  have hself : u.heap s.next = p := by simp [hu, Store.put, hn]
  have hput : ∀ {r : Ref}, r ≠ s.next → u.heap r = t.heap r := fun hr => by simp [hu, Store.put, hn, hr]
  have hid : u.idOf s.next = q.parameterId := by rw [Store.idOf, hself, hb]
  have hv : storeEnv.removeChild g (t, p) = (u.removeChild g s.next, (u.removeChild g s.next).heap s.next) := by
    rw [← hn]; rfl
  have hf := Store.frame_removeChild u g s.next
  rw [hv]
  refine ⟨hf.next.trans hn, ?_, ?_, hf.removed.trans h.removed, ?_, fun r hr => ?_, fun r hr => ?_,
    fun hq => by simp at hq, h.childless, fun r hrn => ?_, ?_⟩
  · rw [Store.ids_removeChild]
    exact h.ids
  · rw [Store.params_removeChild]
    exact h.params
  · rw [Store.heap_removeChild_self hgn, hself]
    split
    · exact ⟨true, by rw [hb]⟩
    · exact ⟨b, by rw [hb]⟩
  · rw [← Option.some.inj hr]; exact hg'
  · rcases List.mem_append.mp hr with hr | hr
    · exact h.left r hr
    · rw [List.mem_singleton.mp hr]; exact hg
  · rw [Store.heap_removeChild hrn, hid, hput hgn, hput hrn, h.heap r hrn]
    by_cases hrg : r = g
    · subst hrg
      simp only [if_true, List.mem_append, List.mem_singleton, or_true]
      rw [h.heap r hrn]
      split
      · exact Parameter.modifyChildren_erase_erase
      · rfl
    · simp [hrg]
  · have hd := Store.dirtyStep_removeChild u g s.next
    have hdu : u.dirtyParameter = t.dirtyParameter := rfl
    rw [Store.DirtyStep, hid, hdu] at hd
    by_cases hm : q.parameterId ∈ t.children g
    · have hleft : ∃ g₁ ∈ l ++ [g], q.parameterId ∈ s.children g₁ :=
        ⟨g, List.mem_append_right _ (List.mem_singleton.mpr rfl), mem_children h hgn hm⟩
      rcases hd with hd | hd <;> rcases h.dirty with h' | ⟨h', -⟩ <;> rw [h'] at hd
      · exact Or.inl hd
      · exact Or.inr ⟨hd, hleft⟩
      · exact Or.inr ⟨hd, hleft⟩
      · exact Or.inr ⟨by rw [hd, insert_insert_self], hleft⟩
    · have hsame : u.removeChild g s.next = u := by
        unfold Store.removeChild
        rw [if_neg]
        rwa [hid, Store.children, hput hgn]
      rw [hsame]
      rcases h.dirty with h' | ⟨h', g₁, hg₁, hm₁⟩
      · exact Or.inl h'
      · exact Or.inr ⟨h', g₁, List.mem_append_left _ hg₁, hm₁⟩

end Sim

/-! ### Options -/

section Options

variable {σ τ : Type} {R : σ → τ → Prop} {read : Reader Bytes}

private theorem parseTexts_rel {fill : Bytes → Bytes → σ → σ} {fill' : Bytes → Bytes → τ → τ}
    (h : ∀ c v x y, R x y → R (fill c v x) (fill' c v y)) (n : Nat) (peek : Option UInt8) {x : σ} {y : τ}
    (is : IStream) (hxy : R x y) : Turn.Rel R (parseTexts read fill n peek x is) (parseTexts read fill' n peek y is) := by
  induction n generalizing peek x y is with
  | zero => exact ⟨hxy, rfl⟩
  | succ n ih =>
    unfold parseTexts
    dsimp only
    split
    · exact ⟨hxy, rfl⟩
    split
    · exact ⟨hxy, rfl⟩
    split
    · exact ⟨hxy, rfl⟩
    split
    · exact ⟨hxy, rfl⟩
    · exact ih _ _ (h _ _ _ _ hxy)

private theorem parseText_rel {fill : Bytes → Bytes → σ → σ} {fill' : Bytes → Bytes → τ → τ}
    (h : ∀ c v x y, R x y → R (fill c v x) (fill' c v y)) {x : σ} {y : τ} (is : IStream) (hxy : R x y) :
    Turn.Rel R (parseText read fill x is) (parseText read fill' y is) := by
  unfold parseText
  dsimp only
  split
  · exact ⟨hxy, rfl⟩
  · have ht : Turn.Rel R (parseTexts read fill _ _ x is.peek.2) (parseTexts read fill' _ _ y is.peek.2) :=
      parseTexts_rel h (is.rest.length + 1) is.peek.1 is.peek.2 hxy
    generalize parseTexts read fill (is.rest.length + 1) is.peek.1 x is.peek.2 = u at ht
    generalize parseTexts read fill' (is.rest.length + 1) is.peek.1 y is.peek.2 = v at ht
    cases u <;> cases v <;> simp only [Turn.Rel] at ht
    · obtain ⟨hR, rfl⟩ := ht
      dsimp only
      split
      · exact ⟨hR, rfl⟩
      · exact ⟨hR, rfl⟩
    · exact ht
    · exact ht

end Options

section ParseOption

variable {s t : Store} {l : List Ref} {p q : Parameter}

/-- `Sim` as a relation between the states of the two parses. -/
def SimPair (s : Store) (x : Store × Parameter) (y : List Ref × Parameter) : Prop := Sim s x.1 x.2 y.1 y.2

theorem Sim.pair (h : Sim s t p l q) : SimPair s (t, p) (l, q) := h

private theorem parseParent_sim (hs : s.Allocated) (h : Sim s t p l q) (is : IStream) :
    Turn.Rel (SimPair s) (parseParent storeEnv (t, p) is) (parseParent (dryEnv s) (l, q) is) := by
  obtain ⟨b, hb⟩ := h.proxy
  have hpar : p.parent = q.parent := by rw [hb]
  unfold parseParent
  dsimp only
  split
  · exact ⟨h, rfl⟩
  split
  · exact ⟨h, rfl⟩
  have hg : storeEnv.getGroup t (readInt16 is).1 = (dryEnv s).getGroup l (readInt16 is).1 := h.getGroup hs _
  rw [hg, hpar]
  split
  · exact ⟨h, rfl⟩
  · next g hg' =>
    have hgs : s.HasGroup g := ⟨_, hg'⟩
    split
    · next o ho =>
      have hid : ∀ {r : Ref}, r < s.next → storeEnv.idOf t r = (dryEnv s).idOf l r := fun hr => h.idOf hr
      rw [hid (hgs.lt hs), hid ((h.parent o ho).lt hs)]
      split
      · exact ⟨h, rfl⟩
      · exact ⟨h.leave hs (h.parent o ho) hgs, rfl⟩
    · exact ⟨h.enter hgs, rfl⟩

private theorem handleOption_sim (h : Sim s t p l q) (opt : Option UInt8) (is : IStream) :
    Turn.Rel (SimPair s) (handleOption (t, p) opt is) (handleOption (l, q) opt is) := by
  obtain ⟨b, hb⟩ := h.proxy
  have hkind : p.kind = q.kind := by rw [hb]
  unfold handleOption
  dsimp only
  rw [hkind]
  split
  · next τ d v _ =>
    split
    · split
      · exact ⟨h, rfl⟩
      · next x is' _ =>
        split
        · exact ⟨h, rfl⟩
        · exact ⟨h.update (f := fun p => { p with kind := .value τ d (v.fill x) }) (fun _ _ => rfl) (fun _ => rfl)
            (fun _ => rfl) fun _ _ => rfl, rfl⟩
    · exact ⟨h, rfl⟩
  · exact ⟨h, rfl⟩

/-- One option of a proxy. -/
theorem parseOption_sim (hs : s.Allocated) {x : Store × Parameter} {y : List Ref × Parameter} (opt : Option UInt8)
    (is : IStream) (h : SimPair s x y) :
    Turn.Rel (SimPair s) (parseOption storeEnv x opt is) (parseOption (dryEnv s) y opt is) := by
  obtain ⟨t, p⟩ := x
  obtain ⟨l, q⟩ := y
  change Sim s t p l q at h
  unfold parseOption
  split
  · exact parseText_rel (fun c v x y hxy => Sim.update hxy (f := fun p => { p with label := p.label.fill c v })
      (fun _ _ => rfl) (fun _ => rfl) (fun _ => rfl) fun _ h => h) is h.pair
  · exact parseText_rel (fun c v x y hxy => Sim.update hxy
      (f := fun p => { p with description := p.description.fill c v }) (fun _ _ => rfl) (fun _ => rfl)
      (fun _ => rfl) fun _ h => h) is
      h.pair
  · exact readOption_rel (fun v x y hxy => Sim.update hxy (f := fun p => { p with tags := p.tags.fill v })
      (fun _ _ => rfl) (fun _ => rfl) (fun _ => rfl) fun _ h => h) is h.pair
  · exact readOption_rel (fun v x y hxy => Sim.update hxy (f := fun p => { p with order := p.order.fill v })
      (fun _ _ => rfl) (fun _ => rfl) (fun _ => rfl) fun _ h => h) is h.pair
  · exact parseParent_sim hs h is
  · exact ⟨h, rfl⟩
  · obtain ⟨b, hb⟩ := h.proxy
    have hu : p.userdata = q.userdata := by rw [hb]
    dsimp only
    rw [hu]
    exact ⟨h.update (f := fun p => { p with userdata := (parseUserdata q.userdata is).1 }) (fun _ _ => rfl)
      (fun _ => rfl) (fun _ => rfl) fun _ h => h, rfl⟩
  · exact readOption_rel (fun v x y hxy => Sim.update hxy (f := fun p => { p with userid := p.userid.fill v })
      (fun _ _ => rfl) (fun _ => rfl) (fun _ => rfl) fun _ h => h) is h.pair
  · exact readOption_rel (fun v x y hxy => Sim.update hxy (f := fun p => { p with readonly := p.readonly.fill v })
      (fun _ _ => rfl) (fun _ => rfl) (fun _ => rfl) fun _ h => h) is h.pair
  · exact handleOption_sim h opt is

end ParseOption

/-! ### Parameters and packets -/

/-- A proxy has no children. -/
theorem children_parseDefinition {mem : Memory} {id : Id} {type : ParameterType} {is : IStream} {o : Outcome Kind}
    (h : (Parameter.create mem id type).kind.parseDefinition is = o) :
    (match o.state with | .group c => c | _ => ∅) = (∅ : Std.ExtTreeMap Int16 Ref) := by
  rw [← h]
  cases type with
  | value τ => simp [Parameter.create, Kind.make, Kind.parseDefinition]
  | bang => rfl
  | group => rfl
  | invalid => rfl

/-- An `UPDATEVALUE` packet names no group. -/
theorem parent_parseUpdateValue {mem : Memory} {is : IStream} {p : Parameter}
    (h : parseUpdateValue mem is = .ok (some p)) : p.parent = none ∧ p.children = ∅ := by
  unfold parseUpdateValue at h
  dsimp only at h
  split at h
  · next τ _ =>
    split at h
    · simp at h
    · next v _ _ =>
      rw [← Option.some.inj (Except.ok.inj h)]
      have hsh := Parameter.shape_apply (Parameter.create mem (readInt16 is).1 (.value τ)) (.setValue v)
      exact ⟨congrArg Shape.parent hsh, congrArg Shape.children hsh⟩
  · simp at h

/-- What the two parses of a parameter come to: no parameter and no change, or a proxy each. -/
def SimResult (s : Store) (x : Store × Option Parameter) (y : List Ref × Option Parameter) : Prop :=
  x = (s, none) ∧ y = ([], none) ∨ ∃ p q, x.2 = some p ∧ y.2 = some q ∧ Sim s x.1 p y.1 q

private theorem parseProxy_sim {s : Store} (hs : s.Allocated) (mem : Memory) (id : Id) (type : ParameterType)
    (is : IStream) :
    Outcome.Rel (SimResult s) (parseProxy storeEnv mem id type s is) (parseProxy (dryEnv s) mem id type [] is) := by
  unfold parseProxy
  dsimp only
  split
  · next hk => exact ⟨Or.inr ⟨_, _, rfl, rfl, .refl rfl (children_parseDefinition hk)⟩, rfl⟩
  · next hk =>
    have hloop : ∀ (q : Parameter) (is : IStream), q.parent = none → q.children = ∅ →
        Outcome.Rel (SimPair s) (optionList (parseOption storeEnv) (s, q) is)
          (optionList (parseOption (dryEnv s)) ([], q) is) := fun q is hq hc =>
      optionList_rel (fun x y c is hxy => parseOption_sim hs c is hxy) (s, q) ([], q) is (Sim.refl hq hc)
    refine Outcome.Rel.map (R := SimPair s) (fun x y hxy => ?_) (hloop _ _ rfl ?_)
    · exact Or.inr ⟨x.2, y.2, rfl, rfl, hxy⟩
    · exact children_parseDefinition hk

theorem parseParameter_sim {s : Store} (hs : s.Allocated) (mem : Memory) (is : IStream) :
    Outcome.Rel (SimResult s) (parseParameter storeEnv mem s is) (parseParameter (dryEnv s) mem [] is) := by
  unfold parseParameter
  dsimp only
  split
  · exact ⟨Or.inl ⟨rfl, rfl⟩, rfl⟩
  split
  · exact ⟨Or.inl ⟨rfl, rfl⟩, rfl⟩
  split
  · exact ⟨Or.inl ⟨rfl, rfl⟩, rfl⟩
  split
  · exact ⟨Or.inl ⟨rfl, rfl⟩, rfl⟩
  · exact parseProxy_sim hs mem _ _ _

/-- The two parses of a packet: the same verdict, and either nothing has changed and there is no parameter, or the
packets differ in their proxies only. -/
structure SimParsed (s : Store) (u : Parsed Store) (v : Parsed (List Ref)) : Prop where
  verdict : u.verdict = v.verdict
  packet : (u.state = s ∧ v.state = [] ∧ u.packet = v.packet ∧ u.packet.bind Packet.parameter = none) ∨
    ∃ c time p q, u.packet = some ⟨c, time, some (.parameter p)⟩ ∧ v.packet = some ⟨c, time, some (.parameter q)⟩ ∧
      Sim s u.state p v.state q

/-- The packets that have been read so far. -/
private def SimPacket (s : Store) (x : Store × Packet) (y : List Ref × Packet) : Prop :=
  x.1 = s ∧ y.1 = [] ∧ x.2 = y.2 ∧ x.2.parameter = none ∨
    ∃ c time p q, x.2 = ⟨c, time, some (.parameter p)⟩ ∧ y.2 = ⟨c, time, some (.parameter q)⟩ ∧ Sim s x.1 p y.1 q

private theorem SimPacket.parsed {s : Store} {x : Store × Packet} {y : List Ref × Packet} (h : SimPacket s x y)
    (v : Verdict) : SimParsed s ⟨x.1, some x.2, v⟩ ⟨y.1, some y.2, v⟩ := by
  refine ⟨rfl, ?_⟩
  rcases h with ⟨h1, h2, h3, h4⟩ | ⟨c, time, p, q, h1, h2, h3⟩
  · exact Or.inl ⟨h1, h2, congrArg some h3, h4⟩
  · exact Or.inr ⟨c, time, p, q, congrArg some h1, congrArg some h2, h3⟩

private theorem parseData_sim {s : Store} (hs : s.Allocated) (mem : Memory) {k : Packet} (hk : k.data = none)
    (is : IStream) :
    Outcome.Rel (SimPacket s) (parseData storeEnv mem s k is) (parseData (dryEnv s) mem [] k is) := by
  have hp : k.parameter = none := by simp [Packet.parameter, hk]
  unfold parseData
  split
  · cases parseInfo is with
    | done i is => exact ⟨Or.inl ⟨rfl, rfl, rfl, rfl⟩, rfl⟩
    | throw e i => exact ⟨Or.inl ⟨rfl, rfl, rfl, rfl⟩, rfl⟩
  · exact ⟨Or.inl ⟨rfl, rfl, rfl, rfl⟩, rfl⟩
  · exact ⟨Or.inl ⟨rfl, rfl, rfl, rfl⟩, rfl⟩
  · refine Outcome.Rel.map (fun x y hxy => ?_) (parseParameter_sim hs mem is)
    rcases hxy with ⟨rfl, rfl⟩ | ⟨p, q, h1, h2, h3⟩
    · exact Or.inl ⟨rfl, rfl, rfl, rfl⟩
    · exact Or.inr ⟨k.command, k.timestamp, p, q, by rw [h1]; rfl, by rw [h2]; rfl, h3⟩
  · exact ⟨Or.inl ⟨rfl, rfl, rfl, hp⟩, rfl⟩
  · exact ⟨Or.inl ⟨rfl, rfl, rfl, hp⟩, rfl⟩

private theorem packetBody_sim {s : Store} (hs : s.Allocated) (mem : Memory) {x : Store × Packet}
    {y : List Ref × Packet}
    (is : IStream) (h : SimPacket s x y) :
    Again.Rel (SimPacket s) (Outcome.Rel (SimParsed s)) (packetBody storeEnv mem x is) (packetBody (dryEnv s) mem y is) := by
  have hdata : x.2.data.isSome = y.2.data.isSome := by
    rcases h with ⟨-, -, h3, -⟩ | ⟨c, time, p, q, h1, h2, -⟩
    · rw [h3]
    · rw [h1, h2]; rfl
  unfold packetBody
  dsimp only
  rw [hdata]
  split
  · exact ⟨h.parsed _, rfl⟩
  split
  · exact ⟨h.parsed _, rfl⟩
  split
  · exact ⟨h.parsed _, rfl⟩
  split
  · split
    · exact ⟨h, rfl⟩
    · refine ⟨?_, rfl⟩
      rcases h with ⟨h1, h2, h3, h4⟩ | ⟨c, time, p, q, h1, h2, h3⟩
      · exact Or.inl ⟨h1, h2, by rw [h3], h4⟩
      · exact Or.inr ⟨c, some (is.get.2.readBE 8).1, p, q, by rw [h1], by rw [h2], h3⟩
  split
  · split
    · exact ⟨h.parsed _, rfl⟩
    · next hn =>
      -- no data yet: nothing has been changed so far
      obtain ⟨h1, h2, h3, -⟩ : x.1 = s ∧ y.1 = [] ∧ x.2 = y.2 ∧ x.2.parameter = none := by
        rcases h with h | ⟨c, time, p, q, h1, h2, -⟩
        · exact h
        · rw [h2] at hn; simp at hn
      have hd := parseData_sim hs mem (k := y.2) (by simpa using hn) is.get.2
      rw [h1, h2, h3]
      generalize parseData storeEnv mem s y.2 is.get.2 = u at hd
      generalize parseData (dryEnv s) mem [] y.2 is.get.2 = v at hd
      cases u <;> cases v <;> simp only [Outcome.Rel] at hd
      · obtain ⟨hR, rfl⟩ := hd
        exact ⟨hR, rfl⟩
      · obtain ⟨hR, rfl⟩ := hd
        exact ⟨hR.parsed _, rfl⟩
  · exact ⟨h.parsed _, rfl⟩

/-- The option loops of the two parses come to the same, and leave the same stream. -/
theorem packetLoop_sim {s : Store} (hs : s.Allocated) (mem : Memory) (n : Nat) (k : Packet) (hk : k.data = none)
    (is : IStream) :
    Outcome.Rel (SimParsed s) (packetLoop storeEnv mem n (s, k) is) (packetLoop (dryEnv s) mem n ([], k) is) := by
  have hstart : SimPacket s (s, k) ([], k) := Or.inl ⟨rfl, rfl, rfl, by simp [Packet.parameter, hk]⟩
  unfold packetLoop
  refine runBody_rel (R := SimPacket s) (S := Outcome.Rel (SimParsed s)) (fun x y is hxy => packetBody_sim hs mem is hxy)
    (fun x y hxy => ?_) n hstart is
  exact ⟨hxy.parsed _, rfl⟩

theorem parsePacket_sim {s : Store} (hs : s.Allocated) (mem : Memory) (is : IStream) :
    SimParsed s (parsePacket storeEnv mem s is) (parsePacket (dryEnv s) mem [] is) := by
  unfold parsePacket
  dsimp only
  split
  · exact ⟨rfl, Or.inl ⟨rfl, rfl, rfl, rfl⟩⟩
  · split
    · exact ⟨rfl, Or.inl ⟨rfl, rfl, rfl, rfl⟩⟩
    · exact ⟨rfl, Or.inl ⟨rfl, rfl, rfl, rfl⟩⟩
    · next p hp =>
        exact ⟨rfl, Or.inr ⟨_, _, p, p, rfl, rfl, .refl (parent_parseUpdateValue hp).1 (parent_parseUpdateValue hp).2⟩⟩
  · next c _ _ =>
    have hloop := (packetLoop_sim hs mem (is.get.2.rest.length + 1) { command := c } rfl is.get.2).state
    rwa [state_packetLoop, state_packetLoop] at hloop

/-! ### The store -/

namespace Store

variable {s t : Store} {ch : Chance} {data : Bytes}

/-- The store `t` holds the proxy `q` at its next reference, and the groups in `l` have been left. -/
structure Proxied (s t : Store) (l : List Ref) (q : Parameter) : Prop where
  next : t.next = s.next + 1
  ids : t.ids = s.ids
  params : t.params = s.params
  removed : t.removedParameter = s.removedParameter
  proxy : ∃ b, t.heap s.next = { q with parentChanged := b }
  parent : ∀ g, q.parent = some g → s.HasGroup g
  left : ∀ g ∈ l, s.HasGroup g
  stayed : q.parent = none → l = []
  childless : q.children = ∅
  heap : ∀ r, r ≠ s.next → t.heap r =
    if r ∈ l then (s.heap r).modifyChildren (·.erase q.parameterId) else s.heap r
  dirty : t.dirtyParameter = s.dirtyParameter ∨
    t.dirtyParameter = s.dirtyParameter.insert q.parameterId s.next ∧ ∃ g ∈ l, q.parameterId ∈ s.children g

/-- A parse of a packet without a parameter changes nothing; else it leaves what the dry parse says. -/
theorem parse_cases (hs : s.Allocated) (ch : Chance) (data : Bytes) :
    (s.parse ch data).verdict = (s.dryParse ch data).verdict ∧
      (((s.parse ch data).state = s ∧ (s.dryParse ch data).state = [] ∧
          (s.parse ch data).packet = (s.dryParse ch data).packet ∧
          (s.parse ch data).packet.bind Packet.parameter = none) ∨
        ∃ c time p q, (s.parse ch data).packet = some ⟨c, time, some (.parameter p)⟩ ∧
          (s.dryParse ch data).packet = some ⟨c, time, some (.parameter q)⟩ ∧
          (s.parse ch data).state.heap s.next = p ∧
          Proxied s (s.parse ch data).state (s.dryParse ch data).state q) := by
  obtain ⟨hv, h⟩ := parsePacket_sim hs ch.mem (stream ch.junk data)
  unfold parse
  dsimp only
  rcases h with ⟨h1, h2, h3, h4⟩ | ⟨c, time, p, q, h1, h2, h3⟩
  · rw [h4]
    exact ⟨hv, Or.inl ⟨h1, h2, h3, h4⟩⟩
  · have hp : (parsePacket storeEnv ch.mem s (stream ch.junk data)).packet.bind Packet.parameter = some p := by
      rw [h1]; rfl
    rw [hp]
    refine ⟨hv, Or.inr ⟨c, time, p, q, h1, h2, if_pos rfl, ?_⟩⟩
    refine ⟨rfl, h3.ids, h3.params, h3.removed, ?_, h3.parent, h3.left, h3.stayed, h3.childless,
      fun r hr => ?_, h3.dirty⟩
    · obtain ⟨b, hb⟩ := h3.proxy
      exact ⟨b, (if_pos rfl).trans hb⟩
    · exact (if_neg hr).trans (h3.heap r hr)

/-- The manager and the cached parameters of `s`, as they are found in `t`. -/
structure Unchanged (s t : Store) : Prop where
  ids : t.ids = s.ids
  params : t.params = s.params
  dirtyParameter : t.dirtyParameter = s.dirtyParameter
  removedParameter : t.removedParameter = s.removedParameter
  heap : ∀ r, r < s.next → t.heap r = s.heap r

/-- Parsing leaves the store as it is exactly if no group that the parsed parameter leaves, by naming another parent
after it, has a child under the id of the packet. -/
theorem parse_unchanged_iff (hs : s.Allocated) (ch : Chance) (data : Bytes) :
    Unchanged s (s.parse ch data).state ↔
      ∀ q, (s.dryParse ch data).packet.bind Packet.parameter = some q →
        ∀ g ∈ (s.dryParse ch data).state, q.parameterId ∉ s.children g := by
  rcases (parse_cases hs ch data).2 with ⟨h1, h2, -, -⟩ | ⟨c, time, p, q, -, h2, -, h⟩
  · rw [h1, h2]
    exact iff_of_true ⟨rfl, rfl, rfl, rfl, fun _ _ => rfl⟩ fun _ _ _ hg => absurd hg List.not_mem_nil
  · have hq : ∀ q', (s.dryParse ch data).packet.bind Packet.parameter = some q' ↔ q' = q := by
      intro q'
      rw [h2]
      exact ⟨fun h => (Option.some.inj h).symm, fun h => congrArg some h.symm⟩
    simp only [hq, forall_eq]
    constructor
    · intro hu g hg hm
      have hgn : g < s.next := (h.left g hg).lt hs
      have hch := congrArg Parameter.children (h.heap g (Nat.ne_of_lt hgn))
      rw [if_pos hg, Parameter.children_modifyChildren_erase, hu.heap g hgn] at hch
      change q.parameterId ∈ (s.heap g).children at hm
      rw [hch] at hm
      simp at hm
    · intro hno
      refine ⟨h.ids, h.params, ?_, h.removed, fun r hr => ?_⟩
      · rcases h.dirty with hd | ⟨-, g, hg, hm⟩
        · exact hd
        · exact absurd hm (hno g hg)
      · rw [h.heap r (Nat.ne_of_lt hr)]
        split
        · next hl => exact Parameter.modifyChildren_erase_of_notMem (hno r hl)
        · rfl

/-- Two groups, and a boolean parameter in the first one. -/
def twoGroups : List Call :=
  [.create {} .createGroupParameter [] root, .create {} .createGroupParameter [] root,
    .create {} .createBooleanParameter [] 1]

/-- An update of the boolean parameter that names one group as its parent. -/
def oneParent : Bytes := [4, 18, 0, 3, 16, 0, 37, 0, 2, 0, 0]

/-- An update of the boolean parameter that names both groups one after the other. -/
def twoParents : Bytes := [4, 18, 0, 3, 16, 0, 37, 0, 1, 37, 0, 2, 0, 0]

theorem allocated_twoGroups : (run Watched.call (.start {} [0]) twoGroups).server.store.Allocated :=
  (along_invariant Watched.inv_call (by decide) (Watched.inv_start {} (by decide))).tracked.linked.built

theorem parse_unchanged_oneParent :
    Unchanged (run Watched.call (.start {} [0]) twoGroups).server.store
      ((run Watched.call (.start {} [0]) twoGroups).server.store.parse ⟨{}, fun _ => 0⟩ oneParent).state := by
  refine (parse_unchanged_iff allocated_twoGroups _ _).mpr fun q _ g hg => absurd hg ?_
  have hnone : ((run Watched.call (.start {} [0]) twoGroups).server.store.dryParse ⟨{}, fun _ => 0⟩ oneParent).state
      = [] := by decide
  rw [hnone]
  exact List.not_mem_nil

/-- The first group has lost its child. -/
theorem parse_changed_twoParents :
    ¬Unchanged (run Watched.call (.start {} [0]) twoGroups).server.store
      ((run Watched.call (.start {} [0]) twoGroups).server.store.parse ⟨{}, fun _ => 0⟩ twoParents).state := by
  intro h
  have hc := congrArg (fun p => decide ((3 : Id) ∈ p.children)) (h.heap 1 (by decide))
  revert hc
  decide

end Store

end RabbitControl

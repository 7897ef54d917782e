import RabbitControl.Bookkeeping
import RabbitControl.Lib.Chronicle

/-!
# Added and removed parameters

A client calls back when a packet adds a parameter to its cache and when one removes a parameter.  `alternates_run`:
the callbacks for an id alternate, and the last one says whether the id is cached, as long as no second packet comes
for the id `0`, which is cached but never valid, and no parameter is removed with others below it, which go without a
callback.
-/

namespace RabbitControl

open Lib

/-! ### Callbacks -/

namespace Client

/-- The callbacks that `_update` and `_remove` make, `parameterAdded` and `parameterRemoved`, with the id of the
parameter that they get. -/
def callbacks (ch : Chance) (data : Bytes) (c : Client) : List (Change × Id) :=
  let r := c.store.parse ch data
  match r.verdict, r.packet with
  | .accepted, some k =>
    match k.command, k.data with
    | .update, some (.parameter p) | .updateValue, some (.parameter p) =>
      match r.state.params[p.parameterId]? with
      | some cached => if (r.state.heap cached).isValid then [] else [(.added, p.parameterId)]
      | none => [(.added, p.parameterId)]
    | .remove, some (.id i) =>
      match r.state.params[i]? with
      | some cached => if (r.state.heap cached).isValid then [(.removed, r.state.idOf cached)] else []
      | none => []
    | _, _ => []
  | _, _ => []

end Client

/-- A client, and the callbacks it has made. -/
structure Logged where
  client : Client
  log : List (Change × Id)

namespace Logged

def start (mem : Memory) : Logged := ⟨.new mem, []⟩

def receive (l : Logged) (m : Chance × Bytes) : Logged :=
  ⟨(l.client.received m.1 m.2).1, l.log ++ l.client.callbacks m.1 m.2⟩

end Logged

/-! ### The cache -/

namespace Store

variable {s t : Store} {r x : Ref} {i : Id}

/-- The children that the removal of a parameter goes on to. -/
def cascade (s : Store) (x : Ref) : List Ref := (s.childRefs x).filter fun y => (s.heap y).isValid

/-- A removal takes away nothing but what is found below the parameter. -/
theorem kept_removeParameterDirect (n : Nat) {j : Id} (hj : j ∈ s.params)
    (h : ∀ y, Below s.cascade r y → s.idOf y ≠ j) : j ∈ (removeParameterDirect n r s).params := by
  refine (removeParameterDirect_invariant
    (P := fun t => Frame s t ∧ (∀ {g c : Ref} {i : Id}, (t.children g)[i]? = some c → (s.children g)[i]? = some c) ∧
      j ∈ t.params)
    (Q := fun y => (s.heap y).isValid = true → Below s.cascade r y) ?_ ?_ n ⟨.refl s, id, hj⟩ fun _ => .refl).2.2
  · rintro t y ⟨hf, hc, ht⟩ hy hv
    have hu := frame_unlink t y
    refine ⟨hf.trans hu, fun hx => hc ?_, ?_⟩
    · rw [children_unlink] at hx
      split at hx
      · rw [getElem?_erase_iff] at hx
        split at hx
        · simp at hx
        · exact hx
      · exact hx
    · rw [params_unlink, mem_erase_iff]
      refine ⟨fun hjy => h y (hy ((hf.isValid y).symm.trans hv)) ?_, ht⟩
      rw [hjy, hf.idOf]
  · rintro t g c k ⟨hf, hc, -⟩ hg hv hx hvalid
    refine (hg ((hf.isValid g).symm.trans hv)).tail ?_
    rw [cascade, List.mem_filter]
    exact ⟨mem_childRefs_iff.mpr ⟨k, hc hx⟩, hvalid⟩

/-- The parameter itself is taken away. -/
private theorem gone_removeParameterDirect (n : Nat) (hv : (s.heap r).isValid = true) :
    s.idOf r ∉ (removeParameterDirect (n + 1) r s).params := by
  have hfold : ∀ (l : List (Int16 × Ref)) {t : Store}, s.idOf r ∉ t.params →
      s.idOf r ∉ (l.foldl (fun s c => removeParameterDirect n c.2 s) t).params := by
    intro l
    induction l with
    | nil => exact fun ht => ht
    | cons c l ih =>
      intro t ht
      refine ih fun hm => ht ?_
      obtain ⟨x, hx⟩ := mem_iff_exists.mp hm
      exact mem_of_getElem? ((params_removeParameterDirect n t c.2).2 hx)
  rw [removeParameterDirect_succ, if_pos hv]
  refine hfold _ fun hm => ?_
  rw [params_unlink, mem_erase_iff] at hm
  exact hm.1 rfl

/-- A parameter below which there are no others under other ids is removed alone. -/
theorem mem_params_removeParameterDirect (n : Nat) (hv : (s.heap r).isValid = true)
    (h : ∀ y, Below s.cascade r y → s.idOf y ∈ s.params → s.idOf y = s.idOf r) (j : Id) :
    j ∈ (removeParameterDirect (n + 1) r s).params ↔ j ≠ s.idOf r ∧ j ∈ s.params := by
  constructor
  · intro hj
    obtain ⟨x, hx⟩ := mem_iff_exists.mp hj
    refine ⟨fun hjr => gone_removeParameterDirect n hv (hjr ▸ hj), ?_⟩
    exact mem_of_getElem? ((params_removeParameterDirect (n + 1) s r).2 hx)
  · rintro ⟨hne, hj⟩
    refine kept_removeParameterDirect (n + 1) hj fun y hy hyj => hne ?_
    rw [← hyj]
    exact h y hy (hyj ▸ hj)

/-- What a client relies on: `ids` and `params` fit together, and whatever has been built is of a known type. -/
structure Tended (s : Store) : Prop where
  booked : Booked s
  allocated : s.Allocated
  known : ∀ {r : Ref}, r < s.next → (s.heap r).known = true

/-- Cached parameters are valid, unless their id is `0`. -/
theorem Tended.isValid_iff (hs : Tended s) (hr : s.params[i]? = some r) : (s.heap r).isValid = true ↔ i ≠ 0 := by
  have hk := hs.known (hs.allocated hr)
  have hid : (s.heap r).parameterId = i := hs.booked.idOf hr
  simp only [Parameter.known, Bool.and_eq_true, bne_iff_ne] at hk
  simp [Parameter.isValid, hk.2, hid]

theorem Tended.of_datatype (hs : Tended s) (h : Booked t ∧ t.Allocated) (hn : t.next = s.next)
    (hd : ∀ r, (t.heap r).getDatatype = (s.heap r).getDatatype) : Tended t := by
  refine ⟨h.1, h.2, fun {r} hr => ?_⟩
  rw [Parameter.known, hd]
  exact hs.known (hn ▸ hr)

private theorem known_parse (hs : Tended s) (ch : Chance) (data : Bytes) :
    ∀ {r : Ref}, r < (s.parse ch data).state.next → ((s.parse ch data).state.heap r).known = true := by
  intro r hr
  rcases (parse_cases hs.allocated ch data).2 with ⟨h, -⟩ | ⟨c, time, p, q, hpk, -, hheap, h⟩
  · rw [h] at hr ⊢
    exact hs.known hr
  · rw [h.next] at hr
    by_cases hrn : r = s.next
    · have hp : (s.parse ch data).packet.bind Packet.parameter = some p := by rw [hpk]; rfl
      rw [hrn, hheap]
      exact (identity_of_parse hp).2
    · have hold : (s.heap r).known = true := hs.known (Nat.lt_of_le_of_ne (Nat.lt_succ_iff.mp hr) hrn)
      rw [h.heap r hrn]
      split
      · rwa [Parameter.known, Parameter.getDatatype_modifyChildren]
      · exact hold

private theorem getDatatype_addParameter (s : Store) (r x : Ref) :
    ((s.addParameter r).heap x).getDatatype = (s.heap x).getDatatype := by
  unfold addParameter
  split
  · rfl
  · dsimp only
    set u := (({ s with ids := insert (s.idOf r) s.ids } : Store).modify r fun p => { p with managed := true }) with hu
    have hd : (u.heap x).getDatatype = (s.heap x).getDatatype := by
      by_cases hx : x = r
      · rw [hu, modify, put, hx]
        simp [Parameter.getDatatype]
      · simp [hu, modify, put, hx]
    split
    · exact ((touched_addChild u _ r).frame.datatype x).trans hd
    · exact hd

theorem clientKept_tended : ClientKept anyHandle Tended := by
  have hb := clientKept_booked
  have hbooked : ∀ {s : Store}, Tended s → Booked s ∧ s.Allocated := fun hs => ⟨hs.booked, hs.allocated⟩
  refine ⟨⟨fun _ => Iff.rfl, fun _ _ => trivial, fun _ _ => trivial, fun _ _ => trivial, fun {s r} a hs _ => ?_,
    fun {s g r} hs _ _ => ?_, fun {s g r} hs _ _ => ?_, fun {s r} hs _ => ?_, fun {s} r all hs => ?_, fun hs => ?_,
    fun hs => ?_, fun ch data hs => ?_⟩, fun {s r} hs hr hid => ?_⟩
  · have hf := frame_set s r a
    exact hs.of_datatype (hb.set a (hbooked hs) trivial) hf.next hf.datatype
  · have hf := (touched_addChild s g r).frame
    exact hs.of_datatype (hb.addChild (hbooked hs) trivial trivial) hf.next hf.datatype
  · have hf := frame_removeChild s g r
    exact hs.of_datatype (hb.removeChild (hbooked hs) trivial trivial) hf.next hf.datatype
  · have hf := frame_unlink s r
    exact hs.of_datatype (hb.unlink (hbooked hs) trivial) hf.next hf.datatype
  · have hf := sameTree_put_write s r s.idOf all
    exact hs.of_datatype (hb.written r all (hbooked hs)) hf.next hf.datatype
  · exact hs.of_datatype (hb.sent (hbooked hs)) rfl fun _ => rfl
  · exact hs.of_datatype (hb.cleared (hbooked hs)) rfl fun _ => rfl
  · have h := hb.parsed ch data (hbooked hs)
    exact ⟨h.1, h.2, known_parse hs ch data⟩
  · exact hs.of_datatype (hb.added (hbooked hs) hr hid) (params_addParameter hid).2 (getDatatype_addParameter s r)

theorem tended_empty (mem : Memory) : Tended (empty mem) := by
  refine ⟨⟨fun id => by simp [empty], fun hr => by simp [empty] at hr⟩, fun hr => by simp [empty] at hr,
    fun {r} hr => ?_⟩
  rfl

/-- The parsed parameter has the id that the packet gives. -/
theorem idOf_parse {p : Parameter} {ch : Chance} {data : Bytes} (hs : s.Allocated)
    (hp : (s.parse ch data).packet.bind Packet.parameter = some p) :
    (s.parse ch data).state.idOf s.next = p.parameterId := by
  rcases (parse_cases hs ch data).2 with ⟨-, -, -, h⟩ | ⟨c, time, p', q, hpk, -, hheap, -⟩
  · rw [hp] at h
    simp at h
  · rw [hpk] at hp
    rw [Store.idOf, hheap, Option.some.inj (show some p' = some p from hp)]

/-- Reading a packet leaves the cache alone. -/
theorem params_parse (hs : s.Allocated) (ch : Chance) (data : Bytes) : (s.parse ch data).state.params = s.params := by
  rcases (parse_cases hs ch data).2 with ⟨h, -⟩ | ⟨c, time, p, q, -, -, -, h⟩
  · rw [h]
  · exact h.params

end Store

/-! ### One packet -/

namespace Client

open Store

variable {c : Client} {ch : Chance} {data : Bytes}

/-- No second parameter comes under the id `0`, and no parameter is removed that has cached parameters below it. -/
structure Orderly (c : Client) (ch : Chance) (data : Bytes) : Prop where
  fresh : ∀ p, (c.store.parse ch data).verdict = .accepted →
    (c.store.parse ch data).packet.bind Packet.parameter = some p → p.parameterId = 0 → 0 ∉ c.store.params
  alone : ∀ time i x, (c.store.parse ch data).verdict = .accepted →
    (c.store.parse ch data).packet = some ⟨.remove, time, some (.id i)⟩ → c.store.params[i]? = some x → i ≠ 0 →
    ∀ y, Below c.store.cascade x y → c.store.idOf y ∈ c.store.params → c.store.idOf y = i

/-- The callbacks of a packet tell what it does to the cache. -/
inductive Reported (s t : Store) : List (Change × Id) → Prop
  | none (h : ∀ i : Id, i ∈ t.params ↔ i ∈ s.params) : Reported s t []
  | added (j : Id) (hj : j ∉ s.params) (h : ∀ i : Id, i ∈ t.params ↔ i = j ∨ i ∈ s.params) :
    Reported s t [(.added, j)]
  | removed (j : Id) (hj : j ∈ s.params) (h : ∀ i : Id, i ∈ t.params ↔ i ≠ j ∧ i ∈ s.params) :
    Reported s t [(.removed, j)]

private theorem callbacks_of_parameter {p : Parameter} (hv : (c.store.parse ch data).verdict = .accepted)
    (hp : (c.store.parse ch data).packet.bind Packet.parameter = some p) :
    c.callbacks ch data =
      match (c.store.parse ch data).state.params[p.parameterId]? with
      | some cached => if ((c.store.parse ch data).state.heap cached).isValid then [] else [(.added, p.parameterId)]
      | none => [(.added, p.parameterId)] := by
  obtain ⟨k, hk, hkp⟩ := Option.bind_eq_some_iff.mp hp
  have hcmd := Store.command_of_parameter hk hkp
  obtain ⟨command, time, body⟩ := k
  obtain rfl : body = some (.parameter p) := Packet.data_of_parameter hkp
  unfold callbacks
  dsimp only
  rw [hv, hk]
  rcases hcmd with rfl | rfl <;> rfl

theorem reported_of_parameter {p : Parameter} (hc : Tended c.store) (ho : c.Orderly ch data)
    (hv : (c.store.parse ch data).verdict = .accepted)
    (hp : (c.store.parse ch data).packet.bind Packet.parameter = some p) :
    Reported c.store (c.received ch data).1.store (c.callbacks ch data) := by
  have hparams := params_parse hc.allocated ch data
  have ht : Tended (c.store.parse ch data).state := clientKept_tended.parsed ch data hc
  have hid := idOf_parse hc.allocated hp
  rw [received_of_parameter hv hp, callbacks_of_parameter hv hp]
  set t := (c.store.parse ch data).state with htdef
  cases hx : t.params[p.parameterId]? with
  | none =>
    have hmem : p.parameterId ∉ t.params := fun hm => by
      obtain ⟨x, hx'⟩ := mem_iff_exists.mp hm
      simp [hx] at hx'
    have hadd : applyUpdate c.store.next t = t.addParameter c.store.next := by rw [applyUpdate, hid, hx]
    refine .added _ (hparams ▸ hmem) fun i => ?_
    dsimp only
    rw [hadd, (params_addParameter (by rw [hid]; exact hmem)).1, hid, ← hparams, Std.ExtTreeMap.mem_insert,
      Std.compare_eq_iff_eq, eq_comm]
  | some x =>
    have hmem : p.parameterId ∈ t.params := mem_of_getElem? hx
    have h0 : p.parameterId ≠ 0 := fun h0 => ho.fresh p hv hp h0 (by rw [← hparams, ← h0]; exact hmem)
    dsimp only
    rw [if_pos ((ht.isValid_iff hx).mpr h0)]
    refine .none fun i => ?_
    rw [(params_applyUpdate (by rw [hid]; exact hmem)).1, hparams]

theorem reported_remove {time : Option Nat} {i : Id} (hc : Tended c.store) (ho : c.Orderly ch data)
    (hv : (c.store.parse ch data).verdict = .accepted)
    (hk : (c.store.parse ch data).packet = some ⟨.remove, time, some (.id i)⟩) :
    Reported c.store (c.received ch data).1.store (c.callbacks ch data) := by
  have hcmd : commandOf data = some .remove := Store.command_parse hk
  have hstate : (c.store.parse ch data).state = c.store :=
    state_parse_of_command (by rw [hcmd]; decide) (by rw [hcmd]; decide)
  have hreceived : (c.received ch data).1.store = applyRemove i c.store := by
    unfold received
    dsimp only
    rw [hv, hk, hstate]
  have hcall : c.callbacks ch data =
      match c.store.params[i]? with
      | some cached => if (c.store.heap cached).isValid then [(.removed, c.store.idOf cached)] else []
      | none => [] := by
    unfold callbacks
    dsimp only
    rw [hv, hk, hstate]
  rw [hreceived, hcall, applyRemove]
  cases hx : c.store.params[i]? with
  | none => exact .none fun _ => Iff.rfl
  | some x =>
    have hid := hc.booked.idOf hx
    dsimp only
    split
    · next hvalid =>
      have h0 := (hc.isValid_iff hx).mp hvalid
      rw [hid]
      refine .removed i (mem_of_getElem? hx) fun j => ?_
      rw [mem_params_removeParameterDirect _ hvalid (fun y hy hm => ?_), hid]
      rw [hid]
      exact ho.alone time i x hv hk hx h0 y hy hm
    · exact .none fun _ => Iff.rfl

/-- In an orderly packet the callbacks tell what it does to the cache. -/
theorem reported_received (hc : Tended c.store) (ho : c.Orderly ch data) :
    Reported c.store (c.received ch data).1.store (c.callbacks ch data) := by
  have hquiet : (c.received ch data).1.store = (c.store.parse ch data).state → c.callbacks ch data = [] →
      Reported c.store (c.received ch data).1.store (c.callbacks ch data) := by
    intro hs hl
    rw [hs, hl]
    refine .none fun i => ?_
    rw [params_parse hc.allocated]
  by_cases hv : (c.store.parse ch data).verdict = .accepted
  · cases hk : (c.store.parse ch data).packet with
    | none => exact hquiet (by unfold received; simp [hv, hk]) (by unfold callbacks; simp [hv, hk])
    | some k =>
      obtain ⟨command, time, body⟩ := k
      rcases body with _ | ⟨p⟩ | ⟨i⟩ | _
      · exact hquiet (by unfold received; cases command <;> simp [hv, hk])
          (by unfold callbacks; cases command <;> simp [hv, hk])
      · exact reported_of_parameter hc ho hv (by rw [hk]; rfl)
      · cases command
        case remove => exact reported_remove hc ho hv hk
        all_goals exact hquiet (by unfold received; simp [hv, hk]) (by unfold callbacks; simp [hv, hk])
      · exact hquiet (by unfold received; cases command <;> simp [hv, hk])
          (by unfold callbacks; cases command <;> simp [hv, hk])
  · exact hquiet (by unfold received; simp [hv]) (by unfold callbacks; simp [hv])

end Client

/-! ### Runs -/

namespace Logged

open Store

/-- For every id the callbacks so far alternate, and the last one says whether the id is in `params`. -/
def Tells (l : Logged) : Prop := ∀ i : Id, Alternates l.log i (i ∈ l.client.store.params)

/-- One packet after the other. -/
theorem tells_receive {l : Logged} {m : Chance × Bytes} (hl : Tended l.client.store ∧ l.Tells)
    (ho : l.client.Orderly m.1 m.2) : Tended (l.receive m).client.store ∧ (l.receive m).Tells := by
  refine ⟨clientKept_tended.received m.1 m.2 hl.1, fun i => ?_⟩
  have hi := hl.2 i
  have hr := Client.reported_received hl.1 ho
  unfold receive
  dsimp only
  generalize (l.client.received m.1 m.2).1.store = t at hr
  generalize l.client.callbacks m.1 m.2 = cs at hr
  cases hr with
  | none h =>
    rw [List.append_nil]
    exact hi.congr (h i)
  | added j hj h =>
    refine hi.snoc (fun hji => iff_of_false (hji ▸ hj) (by decide)) ((h i).trans ?_)
    split
    · next hji => simp [hji]
    · next hji => simp [Ne.symm hji]
  | removed j hj h =>
    refine hi.snoc (fun hji => iff_of_true (hji ▸ hj) rfl) ((h i).trans ?_)
    split
    · next hji => simp [hji]
    · next hji => simp [Ne.symm hji]

/-- In every run of orderly packets the callbacks for an id alternate, beginning with `parameterAdded`, and the id is
cached exactly if the last one was `parameterAdded`. -/
theorem alternates_run (mem : Memory) (ms : List (Chance × Bytes))
    (h : Along receive (fun l m => l.client.Orderly m.1 m.2) (start mem) ms) (i : Id) :
    Alternates (run receive (start mem) ms).log i (i ∈ (run receive (start mem) ms).client.store.params) := by
  refine (along_invariant (I := fun l => Tended l.client.store ∧ l.Tells) (fun l m ho hl => tells_receive hl ho) h
    ⟨tended_empty mem, fun i => ?_⟩).2 i
  exact alternates_nil (by simp [start, Client.new, empty])

/-- A cache without groups that have children. -/
private def Flat (l : Logged) : Prop :=
  0 ∉ l.client.store.params ∧
    ∀ e ∈ l.client.store.params.toList, l.client.store.idOf e.2 = e.1 ∧ l.client.store.cascade e.2 = []

private instance (l : Logged) : Decidable l.Flat := inferInstanceAs (Decidable (_ ∧ _))

private theorem Flat.orderly {l : Logged} (h : l.Flat) (ch : Chance) (data : Bytes) : l.client.Orderly ch data := by
  refine ⟨fun _ _ _ _ => h.1, fun _ i x _ _ hx _ y hy _ => ?_⟩
  obtain ⟨hid, hnil⟩ := h.2 (i, x) (Std.ExtTreeMap.mem_toList_iff_getElem?_eq_some.mpr hx)
  rcases Relation.ReflTransGen.cases_head hy with rfl | ⟨z, hz, -⟩
  · exact hid
  · rw [hnil] at hz
    simp at hz

/-- A parameter comes, is updated, is removed and comes again. -/
def comesAgain : List (Chance × Bytes) :=
  [[4, 18, 0, 5, 16, 0, 0, 0], [4, 18, 0, 5, 16, 0, 0, 0], [5, 18, 0, 5, 0], [4, 18, 0, 5, 16, 0, 0, 0]].map
    fun data => (⟨{}, fun _ => 0⟩, data)

theorem alternates_comesAgain :
    Alternates (run receive (start {}) comesAgain).log 5 (5 ∈ (run receive (start {}) comesAgain).client.store.params) :=
  have hflat : Along receive (fun l _ => l.Flat) (start {}) comesAgain := by decide
  alternates_run {} comesAgain (hflat.imp fun _ _ h => h.orderly _ _) 5

/-- The group `1` comes, the parameter `2` in it, the group is removed, and the parameter comes again. -/
def removedWithGroup : List (Chance × Bytes) :=
  [[4, 18, 0, 1, 40, 0, 0, 0], [4, 18, 0, 2, 16, 0, 37, 0, 1, 0, 0], [5, 18, 0, 1, 0],
    [4, 18, 0, 2, 16, 0, 0, 0]].map fun data => (⟨{}, fun _ => 0⟩, data)

theorem added_twice :
    ¬Alternates (run receive (start {}) removedWithGroup).log 2
      (2 ∈ (run receive (start {}) removedWithGroup).client.store.params) := by
  intro h
  have hhistory : history 2 (run receive (start {}) removedWithGroup).log = [.added, .added] := by decide
  have hchain := h.chain
  rw [hhistory] at hchain
  simp at hchain

/-- A parameter under the id `0` is added by every packet for it. -/
example : (run receive (start {}) (List.replicate 2 (⟨{}, fun _ => 0⟩, [4, 18, 0, 0, 16, 0, 0, 0]))).log =
    [(.added, 0), (.added, 0)] := by decide

end Logged

end RabbitControl

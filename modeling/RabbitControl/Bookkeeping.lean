import RabbitControl.Operations

/-!
# Ids and parameters

A manager keeps the ids that are taken in one container and the parameters under their ids in another.  In every run
of a server and of a client the two agree (`booked_run`): so a new parameter gets an id that no other parameter has,
and creation fails exactly if all ids from `1` to `32767` and from `-32768` to `-2` are in use.
-/

namespace RabbitControl

open Lib

namespace Store

variable {s t : Store} {r : Ref} {id : Id}

/-- The taken ids are the keys of `params`, and every parameter stands under its own id. -/
structure Booked (s : Store) : Prop where
  keys : ∀ id : Id, id ∈ s.ids ↔ id ∈ s.params
  idOf : ∀ {id : Id} {r : Ref}, s.params[id]? = some r → s.idOf r = id

/-! ### The next id -/

private theorem firstFree_eq_none_iff {ids : Finset Int16} {n i : Nat} :
    firstFree ids n i = none ↔ ∀ j, i ≤ j → j < i + n → Int16.ofNat j ∈ ids := by
  induction n generalizing i with
  | zero =>
    refine iff_of_true rfl fun j hj hj' => ?_
    omega
  | succ n ih =>
    rw [firstFree]
    split
    · next hi =>
      rw [ih]
      constructor
      · intro h j hj hj'
        by_cases hji : j = i
        · rw [hji]; exact hi
        · exact h j (by omega) (by omega)
      · intro h j hj hj'
        exact h j (by omega) (by omega)
    · next hi =>
      refine iff_of_false (by simp) fun h => hi ?_
      exact h i le_rfl (by omega)

/-- The counter of `getNextId`, narrowed to a `short`, runs through all ids but `0` and `-1`. -/
theorem exists_ofNat_iff (id : Id) : (∃ j, 1 ≤ j ∧ j < 65535 ∧ Int16.ofNat j = id) ↔ 0 < id ∨ id < -1 := by
  have hlt : id.toBitVec.toNat < 65536 := id.toBitVec.isLt
  have hint : id.toInt = if id.toBitVec.toNat < 32768 then (id.toBitVec.toNat : Int) else id.toBitVec.toNat - 65536 := by
    show id.toBitVec.toInt = _
    rw [BitVec.toInt_eq_toNat_cond]
    split <;> split <;> omega
  rw [Int16.lt_iff_toInt_lt, Int16.lt_iff_toInt_lt, show (0 : Int16).toInt = 0 from rfl,
    show (-1 : Int16).toInt = -1 from rfl, hint]
  constructor
  · rintro ⟨j, hj, hj', rfl⟩
    have hn : (Int16.ofNat j).toBitVec.toNat = j := by
      show (BitVec.ofNat 16 j).toNat = j
      rw [BitVec.toNat_ofNat]
      omega
    rw [hn]
    split <;> omega
  · intro h
    refine ⟨id.toBitVec.toNat, ?_, ?_, ?_⟩
    · split at h <;> omega
    · split at h <;> omega
    · show Int16.ofBitVec (BitVec.ofNat 16 id.toBitVec.toNat) = id
      rw [BitVec.ofNat_toNat, BitVec.setWidth_eq, Int16.ofBitVec_toBitVec]

theorem nextId_eq_none_iff (s : Store) : s.nextId = none ↔ ∀ id : Id, 0 < id ∨ id < -1 → id ∈ s.ids := by
  rw [nextId, firstFree_eq_none_iff]
  constructor
  · intro h id hid
    obtain ⟨j, hj, hj', rfl⟩ := (exists_ofNat_iff id).mpr hid
    exact h j hj (by omega)
  · intro h j hj hj'
    exact h _ ((exists_ofNat_iff _).mp ⟨j, hj, by omega, rfl⟩)

/-! ### Elementary operations -/

theorem booked_touched (hs : Booked s) (h : Touched r s t) : Booked t := by
  constructor
  · intro id
    rw [h.ids, h.params]
    exact hs.keys id
  · intro id x hx
    rw [h.params] at hx
    rw [h.frame.idOf, hs.idOf hx]

theorem booked_unlink (hs : Booked s) (r : Ref) : Booked (s.unlink r) := by
  have hids : (s.unlink r).ids = s.ids.erase (s.idOf r) := by simp [unlink]
  constructor
  · intro id
    rw [hids, params_unlink, Finset.mem_erase, mem_erase_iff, hs.keys]
  · intro id x hx
    rw [getElem?_params_unlink] at hx
    split at hx
    · simp at hx
    · rw [(frame_unlink s r).idOf, hs.idOf hx]

/-- A parameter enters both containers under its id. -/
private theorem booked_insert (hs : Booked s) (hids : t.ids = insert id s.ids) (hp : t.params = s.params.insert id r)
    (hnew : t.idOf r = id) (hold : ∀ {i : Id} {x : Ref}, s.params[i]? = some x → t.idOf x = s.idOf x) : Booked t := by
  constructor
  · intro i
    rw [hids, hp, Finset.mem_insert, Std.ExtTreeMap.mem_insert, Std.compare_eq_iff_eq, hs.keys, eq_comm]
  · intro i x hx
    rw [hp, getElem?_insert_iff] at hx
    split at hx
    · next hi => rw [← Option.some.inj hx, hnew, hi]
    · rw [hold hx, hs.idOf hx]

theorem booked_create (hs : Booked s) (ha : s.Allocated) {mem : Memory} {f : CreateFunction} {label : Bytes} {g : Ref}
    (hc : s.create mem f label g = some (r, t)) : Booked t ∧ t.Allocated := by
  obtain ⟨id, hid⟩ := exists_nextId hc
  obtain ⟨rfl, hb⟩ := born_of_create hid hc
  refine ⟨booked_insert hs hb.ids hb.params hb.idOf_new fun hx => hb.idOf (Nat.ne_of_lt (ha hx)), fun hx => ?_⟩
  rw [hb.params, getElem?_insert_iff] at hx
  rw [hb.next]
  split at hx
  · rw [← Option.some.inj hx]; exact Nat.lt_succ_self _
  · exact Nat.lt_succ_of_lt (ha hx)

theorem booked_parse (hs : Booked s) (ha : s.Allocated) (ch : Chance) (data : Bytes) :
    Booked (s.parse ch data).state ∧ (s.parse ch data).state.Allocated := by
  rcases (parse_cases ha ch data).2 with ⟨h, -⟩ | ⟨c, time, p, q, -, -, -, h⟩
  · rw [h]; exact ⟨hs, ha⟩
  · refine ⟨⟨fun id => ?_, fun hx => ?_⟩, fun hx => ?_⟩
    · rw [h.ids, h.params]; exact hs.keys id
    · rw [h.params] at hx
      rw [Store.idOf, h.heap _ (Nat.ne_of_lt (ha hx)), ← hs.idOf hx]
      split
      · exact Parameter.parameterId_modifyChildren _
      · rfl
    · rw [h.params] at hx
      rw [h.next]
      exact Nat.lt_succ_of_lt (ha hx)

theorem booked_addParameter (hs : Booked s) (ha : s.Allocated) (hr : r < s.next) (hid : s.idOf r ∉ s.params) :
    Booked (s.addParameter r) ∧ (s.addParameter r).Allocated := by
  obtain ⟨hp, hn⟩ := params_addParameter hid
  obtain ⟨hids, hidOf⟩ : (s.addParameter r).ids = insert (s.idOf r) s.ids ∧
      ∀ x, (s.addParameter r).idOf x = s.idOf x := by
    rw [addParameter, if_neg hid]
    dsimp only
    set u := (({ s with ids := insert (s.idOf r) s.ids } : Store).modify r fun p => { p with managed := true }) with hu
    have hi : ∀ x, u.idOf x = s.idOf x := by
      intro x
      by_cases hx : x = r <;> simp [hu, modify, put, Store.idOf, hx]
    split
    · next g _ =>
      have ht := touched_addChild u g r
      exact ⟨ht.ids, fun x => (ht.frame.idOf x).trans (hi x)⟩
    · exact ⟨rfl, hi⟩
  refine ⟨booked_insert hs hids hp (hidOf r) fun _ => hidOf _, fun hx => ?_⟩
  rw [hp, getElem?_insert_iff] at hx
  rw [hn]
  split at hx
  · rw [← Option.some.inj hx]; exact hr
  · exact ha hx

/-! ### Runs -/

theorem touched_removeChild (s : Store) (g r : Ref) : Touched r s (s.removeChild g r) :=
  ⟨frame_removeChild s g r, dirtyStep_removeChild s g r, params_removeChild s g r, ids_removeChild s g r⟩

/-- Nothing is asked of the parameters that operations are called on. -/
abbrev anyHandle (_ : Store) (_ : Ref) : Prop := True

private theorem kept_booked : Kept anyHandle fun s => Booked s ∧ s.Allocated := by
  have htouched : ∀ {s t : Store} {r : Ref}, Touched r s t → Booked s ∧ s.Allocated → Booked t ∧ t.Allocated := by
    intro s t r h hs
    refine ⟨booked_touched hs.1 h, fun hx => ?_⟩
    rw [h.params] at hx
    rw [h.frame.next]
    exact hs.2 hx
  refine ⟨fun _ => Iff.rfl, fun _ _ => trivial, fun _ _ => trivial, fun _ _ => trivial, fun a hs _ => ?_,
    fun hs _ _ => ?_, fun hs _ _ => ?_, fun {s r} hs _ => ?_, fun {s} r all hs => ?_, fun hs => ?_, fun hs => ?_,
    fun ch data hs => ?_⟩
  · exact htouched (touched_set ..) hs
  · exact htouched (touched_addChild ..) hs
  · exact htouched (touched_removeChild ..) hs
  · refine ⟨booked_unlink hs.1 r, fun hx => ?_⟩
    rw [getElem?_params_unlink] at hx
    rw [(frame_unlink s r).next]
    split at hx
    · simp at hx
    · exact hs.2 hx
  · have h := sameTree_put_write s r s.idOf all
    refine ⟨⟨hs.1.keys, fun hx => ?_⟩, hs.2⟩
    exact (h.idOf _).trans (hs.1.idOf hx)
  · exact ⟨⟨hs.1.keys, hs.1.idOf⟩, hs.2⟩
  · refine ⟨⟨fun id => ?_, fun hx => ?_⟩, fun hx => ?_⟩
    · simp [clear]
    · simp [clear] at hx
    · simp [clear] at hx
  · exact booked_parse hs.1 hs.2 ch data

theorem serverKept_booked : ServerKept anyHandle fun s => Booked s ∧ s.Allocated where
  toKept := kept_booked
  created hs _ hc := booked_create hs.1 hs.2 hc
  retired hs _ := ⟨⟨hs.1.keys, hs.1.idOf⟩, hs.2⟩
  removesSent hs := ⟨⟨hs.1.keys, hs.1.idOf⟩, hs.2⟩

theorem clientKept_booked : ClientKept anyHandle fun s => Booked s ∧ s.Allocated where
  toKept := kept_booked
  added hs hr hid := booked_addParameter hs.1 hs.2 hr hid

end Store

/-- Every operation is one on any handles. -/
theorem ServerOp.handles_any (op : ServerOp) (s : Server) : op.Handles Store.anyHandle s := by
  rcases op with c | _ | _ | _ | _
  · cases c <;> simp [Handles, Store.anyHandle]
  · exact ⟨trivial, trivial⟩
  all_goals trivial

theorem ClientOp.handles_any (op : ClientOp) (c : Client) : op.Handles Store.anyHandle c := by
  cases op <;> simp [Handles, Store.anyHandle]

/-- What `create…Parameter` promises of ids: it fails exactly if all ids are in use, and then changes nothing, and it
does not give out an id that is in use. -/
structure Server.GivesFreshIds (s : Server) : Prop where
  fails : ∀ mem f label g, s.store.create mem f label g = none ↔ ∀ id : Id, 0 < id ∨ id < -1 → id ∈ s.store.params
  unchanged : ∀ mem f label g, s.store.create mem f label g = none → s.call (.create mem f label g) = s
  fresh : ∀ {mem f label g r t}, s.store.create mem f label g = some (r, t) →
    t.idOf r ∉ s.store.params ∧ t.params[t.idOf r]? = some r

theorem Server.givesFreshIds {s : Server} (hs : s.store.Booked) : s.GivesFreshIds := by
  have hnone : ∀ mem f label g, s.store.create mem f label g = none ↔ s.store.nextId = none := by
    intro mem f label g
    unfold Store.create
    split <;> simp_all
  refine ⟨fun mem f label g => ?_, fun mem f label g h => ?_, fun {mem f label g r t} hc => ?_⟩
  · rw [hnone, Store.nextId_eq_none_iff]
    simp only [hs.keys]
  · rw [Server.call, h]
  · obtain ⟨id, hid⟩ : ∃ id, s.store.nextId = some id := by
      rw [← Option.ne_none_iff_exists']
      exact fun h => by simp [(hnone mem f label g).mpr h] at hc
    obtain ⟨rfl, hb⟩ := Store.born_of_create hid hc
    rw [hb.idOf_new, hb.params]
    refine ⟨fun hm => hb.free ((hs.keys id).mpr hm), ?_⟩
    simp

/-- The bookkeeping of a server, whatever its application does and whatever it receives. -/
theorem Server.booked_of_run (mem : Memory) (ts : List Nat) (ops : List ServerOp) :
    (run Server.operate (Server.start mem ts) ops).store.Booked := by
  have hstart : (Server.start mem ts).store.Booked ∧ (Server.start mem ts).store.Allocated := by
    rw [Server.store_start]
    have hl := Store.linked_new mem
    refine ⟨⟨fun id => ?_, hl.idOf⟩, hl.built⟩
    simp [Server.new, Store.empty]
  exact (Store.serverKept_booked.run ops (along_of_forall fun s op => op.handles_any s) hstart).1

/-- In every run of a server, whatever its application does and whatever it receives, and in every run of a client the
taken ids are those of the parameters, which stand under their own ids; and the server gives out fresh ids. -/
theorem booked_run :
    (∀ mem ts ops, (run Server.operate (Server.start mem ts) ops).store.Booked ∧
      (run Server.operate (Server.start mem ts) ops).GivesFreshIds) ∧
    ∀ mem ops, (run Client.operate (Client.new mem) ops).store.Booked := by
  constructor
  · intro mem ts ops
    have h := Server.booked_of_run mem ts ops
    exact ⟨h, Server.givesFreshIds h⟩
  · intro mem ops
    have hnew : (Client.new mem).store.Booked ∧ (Client.new mem).store.Allocated := by
      refine ⟨⟨fun id => ?_, fun hx => ?_⟩, fun hx => ?_⟩
      · simp [Client.new, Store.empty]
      · simp [Client.new, Store.empty] at hx
      · simp [Client.new, Store.empty] at hx
    exact (Store.clientKept_booked.run ops (along_of_forall fun c op => op.handles_any c) hnew).1

end RabbitControl

import RabbitControl.Layout
import RabbitControl.SharedValue

/-!
# All options, shared by a server and its clients

A server and any number of clients whose stores follow one layout set options, send their changes and receive those of
the others, in any order.  Every option of every parameter is a link between the server and each client, and every
action is a step of every link (`sharing_step`).  So what all show is the same as soon as nothing is left to send or to
deliver (`alike_of_quiet`).
-/

namespace RabbitControl

open Lib

/-! ### Messages -/

/-- The parameter that a message is read as, if it is one. -/
def reading (data : Bytes) : Option Parameter :=
  ((Store.empty {}).parse ⟨{}, fun _ => 0⟩ data).packet.bind Packet.parameter

/-- What a message tells of an option. -/
def carried (id : Id) (o : OptionId) (data : Bytes) : Option Shown :=
  (reading data).bind fun w => if w.parameterId = id then w.shown o else none

namespace Layout

/-- The store `c` reads the message as the parameter `w`, which it holds and which is in the group that it has there. -/
structure Reads (l : Layout) (c : Store) (data : Bytes) (w : Parameter) : Prop where
  empty : w.children = ∅
  type : l.type w.parameterId = some w.kind.type
  userdata : w.userdata.content = []
  parent : w.parent = none ∨ ∃ j, l.parent w.parameterId = some j ∧ w.parent = c.named j
  shown : ∀ i o, carried i o data = if i = w.parameterId then w.shown o else none

/-- Whatever store reads the message, it is an update of a parameter of the layout. -/
def IsUpdate (l : Layout) (data : Bytes) : Prop :=
  ∀ (c : Store) (ch : Chance), ∃ w command, l.Reads c data w ∧
    c.parse ch data = ⟨c.withProxy w, some { command := command, data := some (.parameter w) }, .accepted⟩

end Layout

namespace Store

variable {l : Layout} {s : Store} {r : Ref} {i id : Id} {o : OptionId} {data : Bytes}

section Packet

variable (hs : Follows l s) (hr : s.params[id]? = some r) (hp : (s.heap r).Readable ∧ (s.heap r).kind.Readable false)

include hs hr hp

private theorem ready_of_follows : Ready (s.heap r) :=
  ⟨hs.created_of_params hr, hs.uncleared hr, hp.1, hp.2⟩

/-- A packet of `update()` tells what is marked. -/
theorem carried_packet (i : Id) (o : OptionId) : carried i o (s.packet r).bytes =
    if s.idOf r = i ∧ (s.heap r).changed o = true then (s.heap r).shown o else none := by
  obtain ⟨w, command, hsent, -, hparse⟩ := parse_packet (ready_of_follows hs hr hp) (empty {}) ⟨{}, fun _ => 0⟩
  have hid : w.parameterId = s.idOf r := hsent.id
  rw [carried, reading, hparse]
  show (if w.parameterId = i then w.shown o else none) = _
  rw [hid, hsent.shown, ite_and]

theorem isUpdate_packet : l.IsUpdate (s.packet r).bytes := by
  intro c ch
  obtain ⟨w, command, hsent, hempty, hparse⟩ := parse_packet (ready_of_follows hs hr hp) c ch
  have hid : w.parameterId = id := hsent.id.trans (hs.idOf hr)
  refine ⟨w, command, ⟨hempty, ?_, hsent.uncleared.userdata, ?_, fun i o => ?_⟩, hparse⟩
  · rw [hid, hsent.kind.type]
    exact hs.type_of_params hr
  · rw [hid, hsent.parent]
    cases (s.heap r).parentChanged with
    | false => exact Or.inl rfl
    | true =>
      cases hg : (s.heap r).parent with
      | none => exact Or.inl rfl
      | some g =>
        rcases hs.above hr hg with hzero | hj
        · -- the root group has no name
          refine Or.inl ?_
          show c.named (s.idOf g) = none
          rw [hzero]
          exact if_pos rfl
        · exact Or.inr ⟨_, hj, rfl⟩
  · rw [carried_packet hs hr hp, hsent.shown, hid, hs.idOf hr, ite_and]
    simp only [eq_comm]

end Packet

section Flush

variable (hs : Follows l s) (hp : s.Writable)

include hs

theorem packets_of_follows : (writeDirty s.dirtyRefs s).1 = s.dirtyRefs.map s.packet :=
  packets_writeDirty (nodup_dirtyRefs hs.keyed)

include hp

theorem isUpdate_flush : ∀ data ∈ (writeDirty s.dirtyRefs s).1.map Message.bytes, l.IsUpdate data := by
  intro data hdata
  rw [packets_of_follows hs, List.map_map] at hdata
  obtain ⟨r, hr, rfl⟩ := List.mem_map.mp hdata
  exact isUpdate_packet hs (hs.params_of_dirty hr) (hp r hr)

/-- What is sent of an option is what it shows, if that is marked. -/
theorem carried_flush (i : Id) (o : OptionId) :
    ((writeDirty s.dirtyRefs s).1.map Message.bytes).filterMap (carried i o) =
      if (s.cell i o).changed then (s.cell i o).value.toList else [] := by
  rw [packets_of_follows hs, List.map_map, List.filterMap_map]
  exact hs.filterMap_dirtyRefs fun r hr => carried_packet hs (hs.params_of_dirty hr) (hp r hr) i o

end Flush

/-- An update that arrives. -/
theorem arrived (hs : Follows l s) (hd : l.IsUpdate data) (ch : Chance) :
    ∃ t w, Follows l t ∧ (∀ i o, Cell.Hears (carried i o data) (s.cell i o) (t.cell i o)) ∧
      (s.parse ch data).verdict = .accepted ∧ (s.parse ch data).packet.bind Packet.parameter = some w ∧
      Server.applyUpdate s.next (s.parse ch data).state = t ∧
      Client.applyUpdate s.next (s.parse ch data).state = t := by
  obtain ⟨w, command, hw, hparse⟩ := hd s ch
  obtain ⟨r, hr, hfollows, hhears⟩ := hs.updated hw.empty hw.type hw.userdata hw.parent
  have hcached := (params_withProxy s w).trans hr
  have hvalid : ((s.withProxy w).heap r).isValid = true := by
    rw [heap_withProxy w (Nat.ne_of_lt (hs.built hr))]
    exact hs.valid hr
  refine ⟨_, w, hfollows, fun i o => ?_, by rw [hparse], by rw [hparse]; rfl, ?_, ?_⟩
  · rw [hw.shown]
    exact hhears i o
  · rw [hparse, Server.applyUpdate, hcached]
    exact if_pos hvalid
  · rw [hparse, Client.applyUpdate, hcached]
    exact if_pos hvalid

end Store

/-! ### One connection -/

theorem Server.update_of_follows {l : Layout} {s : Server} (hs : s.store.Follows l) (ht : s.transporterList ≠ []) :
    s.update = ((s.store.writeDirty s.store.dirtyRefs).1, { s with store := s.store.flushed }) := by
  rw [update, if_neg ht, hs.removed]
  rfl

theorem Client.update_of_follows {l : Layout} {c : Client} (hc : c.store.Follows l) :
    c.update = ((c.store.writeDirty c.store.dirtyRefs).1, { c with store := c.store.flushed }) := by
  have hremoved : (c.store.writeDirty c.store.dirtyRefs).2.removedParameter = ∅ :=
    (Store.lists_writeDirty _ _).2.trans hc.removed
  rw [update, Store.flushed, ← hremoved]

namespace System

variable {ι : Type} [DecidableEq ι] {l : Layout} {s : System ι} {i j : ι} {id : Id} {o : OptionId} {a : Action ι}

/-- The link that an option makes between the server and a client. -/
def link (s : System ι) (i : ι) (id : Id) (o : OptionId) : Link Shown where
  near := s.server.store.cell id o
  far := (s.client i).store.cell id o
  out := (s.down i).filterMap (carried id o)
  back := (s.up i).filterMap (carried id o)

/-- Everyone follows the layout, and everything on its way is an update of it. -/
structure Sharing (l : Layout) (s : System ι) : Prop where
  server : s.server.store.Follows l
  client : ∀ i, (s.client i).store.Follows l
  up : ∀ i, ∀ data ∈ s.up i, l.IsUpdate data
  down : ∀ i, ∀ data ∈ s.down i, l.IsUpdate data
  transporters : s.server.transporterList ≠ []

/-- A setter that takes nothing away and reports its change. -/
def MaySet (s : Store) (r : Ref) (a : Setter) : Prop :=
  s.Live r ∧ a.adds = true ∧ (s.heap r).reports (decide (r ∈ s.dirtyRefs)) a = true

/-- Options are set and passed on; nobody creates, moves or removes a parameter. -/
def Shares (s : System ι) : Action ι → Prop
  | .call (.set r a) => MaySet s.server.store r a
  | .call .update => s.server.store.Writable
  | .clientSet i r a => MaySet (s.client i).store r a
  | .clientUpdate i => (s.client i).store.Writable
  | .serverReceived .. | .clientReceived .. => True
  | .call _ | .clientSend .. => False

/-- A step of the near end. -/
private theorem step_near {k m : Link Shown} {c : Cell (Option Shown)} {x : Option Shown} (out back : List Shown)
    (h : Cell.Hears x k.near c)
    (hm : m = ⟨c, k.far, k.out ++ out, back⟩)
    (hx : k.back = back ∧ out = x.toList ∨ k.back = x.toList ++ back ∧ out = []) : Link.Step k m := by
  subst hm
  rcases hx with ⟨rfl, rfl⟩ | ⟨hb, rfl⟩
  · cases x with
    | none =>
      rw [Option.toList_none, List.append_nil]
      exact .move (Cell.Keeps.moves h)
    | some v => exact .relay h
  · rw [List.append_nil]
    cases x with
    | none =>
      rw [show back = k.back from hb.symm]
      exact .move (Cell.Keeps.moves h)
    | some v => exact .take hb h

theorem sharing_set (h : Sharing l s) {r : Ref} {b : Setter} (hb : MaySet s.server.store r b) :
    Sharing l (s.step (.call (.set r b))) ∧
      ∀ i id o, Link.Step (s.link i id o) ((s.step (.call (.set r b))).link i id o) := by
  have hdown : (s.step (.call (.set r b))).down = s.down := funext fun i => List.append_nil _
  refine ⟨⟨h.server.set hb.1 hb.2.1, h.client, h.up, by rw [hdown]; exact h.down, h.transporters⟩, fun i id o => ?_⟩
  have hlink : (s.step (.call (.set r b))).link i id o =
      { s.link i id o with near := (s.server.store.set r b).cell id o } := by
    rw [link, hdown]
    rfl
  rw [hlink]
  exact .move (h.server.moves_set hb.1 hb.2.1 hb.2.2 id o)

theorem sharing_update (h : Sharing l s) (hp : s.server.store.Writable) :
    Sharing l (s.step (.call .update)) ∧
      ∀ i id o, Link.Step (s.link i id o) ((s.step (.call .update)).link i id o) := by
  have hupdate := Server.update_of_follows h.server h.transporters
  have hserver : (s.step (.call .update)).server = { s.server with store := s.server.store.flushed } := by
    show s.server.update.2 = _
    rw [hupdate]
  have hdown : ∀ i, (s.step (.call .update)).down i =
      s.down i ++ (s.server.store.writeDirty s.server.store.dirtyRefs).1.map Message.bytes := by
    intro i
    show s.down i ++ s.server.update.1.map _ = _
    rw [hupdate]
  refine ⟨⟨?_, h.client, h.up, fun i data hdata => ?_, ?_⟩, fun i id o => ?_⟩
  · rw [hserver]
    exact h.server.flushed
  · rw [hdown] at hdata
    rcases List.mem_append.mp hdata with hdata | hdata
    · exact h.down i data hdata
    · exact Store.isUpdate_flush h.server hp data hdata
  · rw [hserver]
    exact h.transporters
  · have hlink : (s.step (.call .update)).link i id o = { s.link i id o with
        near := ⟨(s.link i id o).near.value, false⟩
        out := (s.link i id o).out ++
          if (s.link i id o).near.changed then (s.link i id o).near.value.toList else [] } := by
      rw [link, hserver, hdown, List.filterMap_append, Store.carried_flush h.server hp, h.server.cell_flushed]
      rfl
    rw [hlink]
    exact .flush

/-- A step of the far end of the link to one client. -/
private theorem step_far {t : System ι} (hserver : t.server = s.server)
    (hother : ∀ j, j ≠ i → t.client j = s.client j ∧ t.up j = s.up j ∧ t.down j = s.down j)
    (h : Link.Step (s.link i id o).swap (t.link i id o).swap) (j : ι) : Link.Step (s.link j id o) (t.link j id o) := by
  by_cases hj : j = i
  · subst hj
    exact .swap h
  · obtain ⟨hc, hu, hd⟩ := hother j hj
    have hsame : t.link j id o = s.link j id o := by rw [link, link, hserver, hc, hu, hd]
    rw [hsame]
    exact .refl _

theorem sharing_clientSet (h : Sharing l s) {r : Ref} {b : Setter} (hb : MaySet (s.client i).store r b) :
    Sharing l (s.step (.clientSet i r b)) ∧
      ∀ j id o, Link.Step (s.link j id o) ((s.step (.clientSet i r b)).link j id o) := by
  have hself : (s.step (.clientSet i r b)).client i = { s.client i with store := (s.client i).store.set r b } :=
    Function.update_self ..
  have hother : ∀ j, j ≠ i → (s.step (.clientSet i r b)).client j = s.client j := fun j hj =>
    Function.update_of_ne hj ..
  refine ⟨⟨h.server, fun j => ?_, h.up, h.down, h.transporters⟩, fun j id o => ?_⟩
  · by_cases hj : j = i
    · rw [hj, hself]
      exact (h.client i).set hb.1 hb.2.1
    · rw [hother j hj]
      exact h.client j
  · refine step_far (s := s) (t := s.step (.clientSet i r b)) rfl (fun j hj => ⟨hother j hj, rfl, rfl⟩) ?_ j
    rw [link, link, hself]
    exact .move ((h.client i).moves_set hb.1 hb.2.1 hb.2.2 id o)

theorem sharing_clientUpdate (h : Sharing l s) (hp : (s.client i).store.Writable) :
    Sharing l (s.step (.clientUpdate i)) ∧
      ∀ j id o, Link.Step (s.link j id o) ((s.step (.clientUpdate i)).link j id o) := by
  have hupdate := Client.update_of_follows (h.client i)
  have hself : (s.step (.clientUpdate i)).client i = { s.client i with store := (s.client i).store.flushed } := by
    refine (Function.update_self ..).trans ?_
    rw [hupdate]
  have hother : ∀ j, j ≠ i → (s.step (.clientUpdate i)).client j = s.client j := fun j hj =>
    Function.update_of_ne hj ..
  have hup : (s.step (.clientUpdate i)).up i =
      s.up i ++ ((s.client i).store.writeDirty (s.client i).store.dirtyRefs).1.map Message.bytes := by
    refine (Function.update_self ..).trans ?_
    rw [hupdate]
  have hup_other : ∀ j, j ≠ i → (s.step (.clientUpdate i)).up j = s.up j := fun j hj => Function.update_of_ne hj ..
  refine ⟨⟨h.server, fun j => ?_, fun j data hdata => ?_, h.down, h.transporters⟩, fun j id o => ?_⟩
  · by_cases hj : j = i
    · rw [hj, hself]
      exact (h.client i).flushed
    · rw [hother j hj]
      exact h.client j
  · by_cases hj : j = i
    · rw [hj, hup] at hdata
      rcases List.mem_append.mp hdata with hdata | hdata
      · exact h.up i data hdata
      · exact Store.isUpdate_flush (h.client i) hp data hdata
    · rw [hup_other j hj] at hdata
      exact h.up j data hdata
  · refine step_far (s := s) (t := s.step (.clientUpdate i)) rfl (fun j hj => ⟨hother j hj, hup_other j hj, rfl⟩) ?_ j
    rw [link, link, hself, hup, List.filterMap_append, Store.carried_flush (h.client i) hp, (h.client i).cell_flushed]
    exact .flush

theorem sharing_serverReceived (h : Sharing l s) (i : ι) (depth : Nat) (ch : Chance) :
    Sharing l (s.step (.serverReceived i depth ch)) ∧
      ∀ j id o, Link.Step (s.link j id o) ((s.step (.serverReceived i depth ch)).link j id o) := by
  cases hup : s.up i with
  | nil =>
    have hs : s.step (.serverReceived i depth ch) = s := by rw [step, hup]
    rw [hs]
    exact ⟨h, fun _ _ _ => .refl _⟩
  | cons data rest =>
    have hdata : l.IsUpdate data := h.up i data (by rw [hup]; exact List.mem_cons_self)
    obtain ⟨t, w, hfollows, hhears, hverdict, hpacket, ht, -⟩ := Store.arrived h.server hdata ch
    have hreceived : s.server.received depth ch data = _ := Server.received_of_parameter hverdict hpacket
    rw [ht] at hreceived
    have hstep : s.step (.serverReceived i depth ch) =
        { s with
          server := { s.server with store := t }
          up := Function.update s.up i rest
          down := fun j => s.down j ++ if j = i then [] else [data] } := by
      rw [step, hup]
      simp [hreceived, h.transporters]
    rw [hstep]
    refine ⟨⟨hfollows, h.client, fun j d hd => ?_, fun j d hd => ?_, h.transporters⟩, fun j id o => ?_⟩
    · dsimp only at hd
      by_cases hj : j = i
      · subst hj
        rw [Function.update_self] at hd
        exact h.up j d (by rw [hup]; exact List.mem_cons_of_mem _ hd)
      · rw [Function.update_of_ne hj] at hd
        exact h.up j d hd
    · rcases List.mem_append.mp hd with hd | hd
      · exact h.down j d hd
      · split at hd
        · simp at hd
        · rw [List.mem_singleton.mp hd]
          exact hdata
    · by_cases hj : j = i
      · subst hj
        refine step_near [] (rest.filterMap (carried id o)) (hhears id o) ?_ (Or.inr ⟨?_, rfl⟩)
        · simp [link]
        · show (s.up j).filterMap _ = _
          rw [hup, List.filterMap_cons]
          cases carried id o data <;> rfl
      · refine step_near (carried id o data).toList ((s.up j).filterMap (carried id o)) (hhears id o) ?_
          (Or.inl ⟨rfl, rfl⟩)
        simp only [link, if_neg hj, List.filterMap_append, Function.update_of_ne hj, List.filterMap_cons,
          List.filterMap_nil]
        cases carried id o data <;> rfl

theorem sharing_clientReceived (h : Sharing l s) (i : ι) (ch : Chance) :
    Sharing l (s.step (.clientReceived i ch)) ∧
      ∀ j id o, Link.Step (s.link j id o) ((s.step (.clientReceived i ch)).link j id o) := by
  cases hdown : s.down i with
  | nil =>
    have hs : s.step (.clientReceived i ch) = s := by rw [step, hdown]
    rw [hs]
    exact ⟨h, fun _ _ _ => .refl _⟩
  | cons data rest =>
    have hdata : l.IsUpdate data := h.down i data (by rw [hdown]; exact List.mem_cons_self)
    obtain ⟨t, w, hfollows, hhears, hverdict, hpacket, -, ht⟩ := Store.arrived (h.client i) hdata ch
    have hreceived := Client.received_of_parameter (c := s.client i) hverdict hpacket
    rw [ht] at hreceived
    have hstep : s.step (.clientReceived i ch) =
        { s with
          client := Function.update s.client i { s.client i with store := t }
          down := Function.update s.down i rest } := by
      rw [step, hdown]
      simp [hreceived]
    have hother : ∀ j, j ≠ i → (s.step (.clientReceived i ch)).client j = s.client j ∧
        (s.step (.clientReceived i ch)).up j = s.up j ∧ (s.step (.clientReceived i ch)).down j = s.down j := by
      intro j hj
      rw [hstep]
      exact ⟨Function.update_of_ne hj .., rfl, Function.update_of_ne hj ..⟩
    refine ⟨?_, fun j id o => ?_⟩
    · rw [hstep]
      refine ⟨h.server, fun j => ?_, h.up, fun j d hd => ?_, h.transporters⟩ <;> dsimp only at * <;> by_cases hj : j = i
      · subst hj
        rw [Function.update_self]
        exact hfollows
      · rw [Function.update_of_ne hj]
        exact h.client j
      · subst hj
        rw [Function.update_self] at hd
        exact h.down j d (by rw [hdown]; exact List.mem_cons_of_mem _ hd)
      · rw [Function.update_of_ne hj] at hd
        exact h.down j d hd
    · refine step_far (s := s) (t := s.step (.clientReceived i ch)) (by rw [hstep]) hother ?_ j
      refine step_near [] (rest.filterMap (carried id o)) (hhears id o) ?_ (Or.inr ⟨?_, rfl⟩)
      · simp [hstep, link, Link.swap]
      · show (s.down i).filterMap _ = _
        rw [hdown, List.filterMap_cons]
        cases carried id o data <;> rfl

/-- Every action is a step of every link. -/
theorem sharing_step (h : Sharing l s) (ha : s.Shares a) :
    Sharing l (s.step a) ∧ ∀ i id o, Link.Step (s.link i id o) ((s.step a).link i id o) := by
  cases a with
  | call c =>
    cases c with
    | set r b => exact sharing_set h ha
    | update => exact sharing_update h ha
    | create | addChild | removeParameter | receive => exact ha.elim
  | clientSet i r b => exact sharing_clientSet h ha
  | clientUpdate i => exact sharing_clientUpdate h ha
  | serverReceived i depth ch => exact sharing_serverReceived h i depth ch
  | clientReceived i ch => exact sharing_clientReceived h i ch
  | clientSend => exact ha.elim

/-- Everyone follows the layout and shows the same, and nothing is on its way. -/
structure Aligned (l : Layout) (s : System ι) : Prop where
  server : s.server.store.Follows l
  client : ∀ i, (s.client i).store.Follows l
  alike : ∀ i id o, (s.client i).store.shown id o = s.server.store.shown id o
  up : ∀ i, s.up i = []
  down : ∀ i, s.down i = []
  transporters : s.server.transporterList ≠ []

theorem converging_run (h : Aligned l s) {as : List (Action ι)} (has : Along step Shares s as) :
    Sharing l (run step s as) ∧ ∀ i id o, ((run step s as).link i id o).Converging := by
  refine along_invariant (I := fun s => Sharing l s ∧ ∀ i id o, (s.link i id o).Converging)
    (fun s a ha hs => ?_) has ⟨⟨h.server, h.client, ?_, ?_, h.transporters⟩, fun i id o => ?_⟩
  · obtain ⟨hsharing, hlinks⟩ := sharing_step hs.1 ha
    exact ⟨hsharing, fun i id o => Link.converging_step (hlinks i id o) (hs.2 i id o)⟩
  · intro i data hdata
    simp [h.up i] at hdata
  · intro i data hdata
    simp [h.down i] at hdata
  · refine Link.converging_of_eq ?_ ?_ ?_
    · show (s.server.store.cell id o).value = ((s.client i).store.cell id o).value
      rw [Store.value_cell, Store.value_cell, h.alike]
    · show (s.down i).filterMap _ = []
      rw [h.down i]
      rfl
    · show (s.up i).filterMap _ = []
      rw [h.up i]
      rfl

/-- Whoever sets which options, and however the messages are interleaved: if nothing is on its way and nobody has the
parameter dirty, then all show the same. -/
theorem alike_of_quiet (h : Aligned l s) (as : List (Action ι)) (has : Along step Shares s as) (id : Id)
    (hq : Quiet id (run step s as)) (i : ι) (o : OptionId) :
    ((run step s as).client i).store.shown id o = (run step s as).server.store.shown id o := by
  obtain ⟨hqueues, hserver, hclient⟩ := hq
  have hagree := ((converging_run h has).2 i id o).agree (Store.changed_cell_of_notMem hserver o) ?_
    (Store.changed_cell_of_notMem (hclient i) o) ?_
  · rw [← Store.value_cell, ← Store.value_cell]
    exact hagree.symm
  · show ((run step s as).down i).filterMap _ = []
    rw [(hqueues i).2]
    rfl
  · show ((run step s as).up i).filterMap _ = []
    rw [(hqueues i).1]
    rfl

end System

end RabbitControl

import RabbitControl.Accounts
import RabbitControl.Operations
import RabbitControl.System

/-!
# Exposed parameters

Whatever clients send, a server names in its own packets only ids that it has given out itself.  But it relays an
update also when it does not hold the parameter, and a client adds what it does not know.

`Event` is all that may happen to a server, the clients at its transporters and the messages between them.
`clients_hold_exposed_iff` says when clients hold exposed parameters only, and relayed updates name parameters of the
server: the first half takes only that no packet of a client is made up about an id that was never given out, the second
one also that no removal crosses an update.
-/

namespace RabbitControl

open Lib

/-! ### Events -/

inductive Event (ι : Type)
  | server (op : ServerOp)
  | client (i : ι) (op : ClientOp)
  | clientSend (i : ι) (data : Bytes)
  | serverReceived (i : ι) (depth : Nat) (ch : Chance)
  | clientReceived (i : ι) (ch : Chance)

/-- The packets that an operation makes a server write. -/
def Server.written (s : Server) : ServerOp → List Message
  | .call c => s.emitted c
  | _ => []

def Client.written (c : Client) : ClientOp → List Message
  | .update => c.update.1
  | _ => []

def Action.event {ι : Type} : Action ι → Event ι
  | .call c => .server (.call c)
  | .clientSet i r a => .client i (.set r a)
  | .clientUpdate i => .client i .update
  | .clientSend i data => .clientSend i data
  | .serverReceived i depth ch => .serverReceived i depth ch
  | .clientReceived i ch => .clientReceived i ch

namespace System

variable {ι : Type} [DecidableEq ι]

/-- One event.  The client `i` is connected to the transporter `via i`, and a transporter that has been removed passes
nothing on.  Messages come from the other side only, and a client that is disconnected loses what is on its way to
it. -/
def undergo (via : ι → Nat) (s : System ι) : Event ι → System ι
  | .server (.call (.receive ..)) | .client _ (.receive ..) => s
  | .server op =>
    { s with
      server := s.server.operate op
      down := fun i => s.down i ++
        if via i ∈ s.server.transporterList then (s.server.written op).map Message.bytes else [] }
  | .client i .disconnected =>
    { s with
      client := Function.update s.client i (s.client i).disconnected
      down := Function.update s.down i [] }
  | .client i op =>
    { s with
      client := Function.update s.client i ((s.client i).operate op)
      up := Function.update s.up i (s.up i ++ ((s.client i).written op).map Message.bytes) }
  | .clientSend i data => { s with up := Function.update s.up i (s.up i ++ [data]) }
  | .serverReceived i depth ch =>
    match s.up i with
    | [] => s
    | data :: rest =>
      if via i ∈ s.server.transporterList then
        let r := s.server.received depth ch data
        { s with
          server := r.server
          up := Function.update s.up i rest
          down := fun j => s.down j ++
            if j = i then r.replies.map Message.bytes
            else if r.relay ∧ via j ∈ s.server.transporterList then [data] else [] }
      else { s with up := Function.update s.up i rest }
  | .clientReceived i ch => s.step (.clientReceived i ch)

variable {via : ι → Nat} {s : System ι}

theorem undergo_server {op : ServerOp} (h : ∀ depth ch data, op ≠ .call (.receive depth ch data)) :
    s.undergo via (.server op) =
      { s with
        server := s.server.operate op
        down := fun i => s.down i ++
          if via i ∈ s.server.transporterList then (s.server.written op).map Message.bytes else [] } := by
  cases op with
  | call c =>
    cases c with
    | receive depth ch data => exact absurd rfl (h depth ch data)
    | create | set | addChild | removeParameter | update => rfl
  | removeChild | clear | addTransporter | removeTransporter => rfl

/-- As long as the transporters of all clients are there, the actions of `System.step` are events. -/
theorem undergo_event (hvia : ∀ i, via i ∈ s.server.transporterList) (a : Action ι) :
    s.undergo via a.event = s.step a := by
  cases a with
  | call c =>
    by_cases hc : ∃ depth ch data, c = .receive depth ch data
    · obtain ⟨depth, ch, data, rfl⟩ := hc
      rfl
    · have hop : ∀ depth ch data, ServerOp.call c ≠ .call (.receive depth ch data) := fun depth ch data h =>
        hc ⟨depth, ch, data, ServerOp.call.inj h⟩
      have hstep : s.step (.call c) = { s with
          server := s.server.call c, down := fun i => s.down i ++ (s.server.emitted c).map Message.bytes } := by
        cases c with
        | receive depth ch data => exact absurd rfl (hop depth ch data)
        | create | set | addChild | removeParameter | update => rfl
      rw [Action.event, undergo_server hop, hstep]
      simp only [hvia, if_true, Server.operate, Server.written]
  | clientSet i r a =>
    have hup : Function.update s.up i (s.up i ++ ([] : List Message).map Message.bytes) = s.up := by
      rw [List.map_nil, List.append_nil, Function.update_eq_self]
    exact congrArg (fun up => { s with
      client := Function.update s.client i { s.client i with store := (s.client i).store.set r a }, up := up }) hup
  | clientUpdate i => rfl
  | clientSend i data => rfl
  | serverReceived i depth ch =>
    rw [Action.event, undergo, step]
    cases hup : s.up i with
    | nil => rfl
    | cons data rest =>
      have hne : s.server.transporterList ≠ [] := List.ne_nil_of_mem (hvia i)
      simp only [hvia, hne, if_true, and_true, ne_eq, not_false_eq_true]
  | clientReceived i ch => rfl

/-- Every update on its way to the server names a parameter of the store. -/
def AwaitedIn (s : System ι) (t : Store) : Prop :=
  ∀ i, ∀ data ∈ s.up i, ∀ id, announcedId data = some id → id ∈ t.params

end System

/-! ### Runs -/

/-- A system, with the ids that `create…Parameter` has given out and the parameters it has returned. -/
structure Traced (ι : Type) where
  system : System ι
  created : List Id := []
  handles : List Ref := []

namespace Traced

open Store

variable {ι : Type} [DecidableEq ι] {via : ι → Nat}

def step (via : ι → Nat) (s : Traced ι) (e : Event ι) : Traced ι :=
  let t : Traced ι := { s with system := s.system.undergo via e }
  match e with
  | .server (.call (.create mem f label g)) =>
    match s.system.server.store.create mem f label g with
    | some (r, u) => { t with created := u.idOf r :: s.created, handles := r :: s.handles }
    | none => t
  | _ => t

def start (mem : Memory) (ts : List Nat) (memory : ι → Memory) : Traced ι := { system := System.start mem ts memory }

/-- The server's application works on the root group and on parameters that it has created, and an application of a
client puts only parameters into a group that the client has got. -/
def InScope (s : Traced ι) : Event ι → Prop
  | .server (.call (.create _ _ _ g)) => (s.system.server.store.heap g).isGroup = true ∧ (g = root ∨ g ∈ s.handles)
  | .server (.call (.set r _)) => r = root ∨ r ∈ s.handles
  | .server (.call (.addChild g r)) | .server (.removeChild g r) =>
    (s.system.server.store.heap g).isGroup = true ∧ (g = root ∨ g ∈ s.handles) ∧ (r = root ∨ r ∈ s.handles)
  | .client i (.addChild _ r) => ((s.system.client i).store.heap r).managed = true
  | _ => True

/-- Every client holds only ids that the server has given out. -/
def Exposed (s : Traced ι) : Prop := ∀ i, ∀ id : Id, id ∈ (s.system.client i).store.params → id ∈ s.created

/-- A message that the server relays is an update of a parameter that it holds. -/
def RelaysHeld (via : ι → Nat) (s : Traced ι) : Event ι → Prop
  | .serverReceived i depth ch => ∀ data rest, s.system.up i = data :: rest → via i ∈ s.system.server.transporterList →
    (s.system.server.received depth ch data).relay = true →
      ∃ p, (s.system.server.store.parse ch data).packet.bind Packet.parameter = some p ∧
        p.parameterId ∈ s.system.server.store.params
  | _ => True

/-! ### Conditions -/

/-- The root group is not put into a group. -/
def RootOnTop (_ : Traced ι) : Event ι → Prop
  | .server (.call (.addChild _ r)) => r ≠ root
  | _ => True

/-- A packet that a client makes up names an id that has been given out, if any. -/
def Genuine (s : Traced ι) : Event ι → Prop
  | .clientSend _ data => Announces s.created data
  | _ => True

/-- A packet that a client makes up names a parameter of the server, if any, and so do the updates that it sends.  What
the server's application removes is not named by an update on its way. -/
def Orderly (s : Traced ι) : Event ι → Prop
  | .clientSend _ data => ∀ id, announcedId data = some id → id ∈ s.system.server.store.params
  | .client i .update =>
    ∀ r ∈ (s.system.client i).store.dirtyRefs, (s.system.client i).store.idOf r ∈ s.system.server.store.params
  | .server (.call (.removeParameter id)) => s.system.AwaitedIn (s.system.server.store.removeParameter id)
  | .server .clear => s.system.AwaitedIn s.system.server.store.clear
  | _ => True

/-- A message that the server accepts as an update names a parameter that the server holds. -/
def NamesHeld (via : ι → Nat) (s : Traced ι) : Event ι → Prop
  | .serverReceived i _ ch => ∀ data rest, s.system.up i = data :: rest → via i ∈ s.system.server.transporterList →
    (s.system.server.store.parse ch data).verdict = .accepted →
      ∀ p, (s.system.server.store.parse ch data).packet.bind Packet.parameter = some p →
        p.parameterId ∈ s.system.server.store.params
  | _ => True

/-! ### What the server sends -/

/-- The invariant of the runs. -/
structure Inv (s : Traced ι) : Prop where
  server : Accounted s.created s.system.server.store
  handles : ∀ r ∈ s.handles, Named s.created s.system.server.store r
  down : ∀ i, ∀ data ∈ s.system.down i, Announces s.created data
  client : ∀ i, Client.Holds s.created (s.system.client i)

/-- A message that the server relays announces an id that has been given out. -/
def RelaysNamed (via : ι → Nat) (s : Traced ι) : Event ι → Prop
  | .serverReceived i depth ch => ∀ data rest, s.system.up i = data :: rest → via i ∈ s.system.server.transporterList →
    (s.system.server.received depth ch data).relay = true → Announces s.created data
  | _ => True

omit [DecidableEq ι] in
theorem Inv.exposed {s : Traced ι} (hs : s.Inv) : s.Exposed := fun i _ => (hs.client i).accounted.mem

/-- The invariant for more ids. -/
theorem Inv.create {s : Traced ι} (hs : s.Inv) {mem : Memory} {f : CreateFunction} {label : Bytes} {g : Ref}
    (hg : (s.system.server.store.heap g).isGroup = true) (hh : g = root ∨ g ∈ s.handles) :
    (s.step via (.server (.call (.create mem f label g)))).Inv := by
  have hgn : g < s.system.server.store.next := by
    rcases hh with rfl | hh
    · exact hs.server.base
    · exact (hs.handles g hh).built
  have hdown : ∀ i, (s.system.undergo via (.server (.call (.create mem f label g)))).down i = s.system.down i := by
    intro i
    show s.system.down i ++ (if via i ∈ s.system.server.transporterList then [] else []) = _
    rw [ite_self, List.append_nil]
  have hstore : (s.system.undergo via (.server (.call (.create mem f label g)))).server =
      s.system.server.call (.create mem f label g) := rfl
  unfold step
  dsimp only
  cases hc : s.system.server.store.create mem f label g with
  | none =>
    have hcall : s.system.server.call (.create mem f label g) = s.system.server := by rw [Server.call, hc]
    refine ⟨?_, ?_, ?_, hs.client⟩
    · rw [hstore, hcall]; exact hs.server
    · rw [hstore, hcall]; exact hs.handles
    · intro i data hd
      rw [hdown] at hd
      exact hs.down i data hd
  | some p =>
    obtain ⟨r, t⟩ := p
    have hcall : s.system.server.call (.create mem f label g) = { s.system.server with store := t } := by
      rw [Server.call, hc]
    obtain ⟨h1, h2, h3⟩ := accounted_create hs.server hg hgn hc
    have hsub : ∀ id, id ∈ s.created → id ∈ t.idOf r :: s.created := fun id h => List.mem_cons_of_mem _ h
    constructor
    · rw [hstore, hcall]; exact h1
    · intro x hx
      rw [hstore, hcall]
      rcases List.mem_cons.mp hx with rfl | hx
      · exact h2
      · exact h3 (hs.handles x hx)
    · intro i data hd id hid
      rw [hdown] at hd
      exact hsub id (hs.down i data hd id hid)
    · exact fun i => (hs.client i).mono hsub

/-- An operation of the server that creates nothing. -/
theorem Inv.operate {s : Traced ι} (hs : s.Inv) {op : ServerOp}
    (hstep : s.step via (.server op) = { s with system := s.system.undergo via (.server op) })
    (hop : ∀ depth ch data, op ≠ .call (.receive depth ch data))
    (hserver : Accounted s.created (s.system.server.operate op).store)
    (hkeep : ∀ {x}, Named s.created s.system.server.store x → Named s.created (s.system.server.operate op).store x)
    (hsent : ∀ m ∈ s.system.server.written op, Announces s.created m.bytes) : (s.step via (.server op)).Inv := by
  rw [hstep, System.undergo_server hop]
  refine ⟨hserver, fun x hx => hkeep (hs.handles x hx), fun i data hd => ?_, hs.client⟩
  rcases List.mem_append.mp hd with hd | hd
  · exact hs.down i data hd
  · split at hd
    · obtain ⟨m, hm, rfl⟩ := List.mem_map.mp hd
      exact hsent m hm
    · simp at hd

/-- Queues of which one has lost messages. -/
private theorem mem_of_mem_update {queue : ι → List Bytes} {i : ι} {l : List Bytes} (hl : ∀ data ∈ l, data ∈ queue i)
    (j : ι) (data : Bytes) (h : data ∈ Function.update queue i l j) : data ∈ queue j := by
  by_cases hj : j = i
  · subst hj
    rw [Function.update_self] at h
    exact hl data h
  · rwa [Function.update_of_ne hj] at h

/-- Only the client `i` is concerned. -/
theorem Inv.client_step {s : Traced ι} (hs : s.Inv) (i : ι) {c : Client} (hc : Client.Holds s.created c)
    (up down : ι → List Bytes) (hdown : ∀ j, ∀ data ∈ down j, data ∈ s.system.down j) :
    Inv { s with
      system := { s.system with client := Function.update s.system.client i c, up := up, down := down } } := by
  refine ⟨hs.server, hs.handles, fun j data hd => hs.down j data (hdown j data hd), fun j => ?_⟩
  dsimp only
  by_cases hj : j = i
  · subst hj
    rw [Function.update_self]
    exact hc
  · rw [Function.update_of_ne hj]
    exact hs.client j

/-- A message arrives at a client. -/
theorem Inv.clientReceived {s : Traced ι} (hs : s.Inv) (i : ι) (ch : Chance) :
    (s.step via (.clientReceived i ch)).Inv := by
  have hstep : s.step via (.clientReceived i ch) = { s with system := s.system.step (.clientReceived i ch) } := rfl
  rw [hstep, System.step]
  cases hdown : s.system.down i with
  | nil => exact hs
  | cons data rest =>
    have hann : Announces s.created data := hs.down i data (by rw [hdown]; exact List.mem_cons_self ..)
    refine hs.client_step i (Client.holds_received (hs.client i) ch hann) _ _ (mem_of_mem_update fun m hm => ?_)
    rw [hdown]
    exact List.mem_cons_of_mem _ hm

/-- A message arrives at the server. -/
theorem Inv.serverReceived {s : Traced ι} (hs : s.Inv) (i : ι) (depth : Nat) (ch : Chance)
    (hn : s.RelaysNamed via (.serverReceived i depth ch)) : (s.step via (.serverReceived i depth ch)).Inv := by
  have hstep : s.step via (.serverReceived i depth ch) =
      { s with system := s.system.undergo via (.serverReceived i depth ch) } := rfl
  rw [hstep, System.undergo]
  cases hup : s.system.up i with
  | nil => exact hs
  | cons data rest =>
    dsimp only
    split
    · next hvia =>
      obtain ⟨h1, h2, h3⟩ := Server.accounted_received hs.server depth ch data
      refine ⟨h1, fun x hx => h2 (hs.handles x hx), fun j m hm => ?_, hs.client⟩
      rcases List.mem_append.mp hm with hm | hm
      · exact hs.down j m hm
      split at hm
      · obtain ⟨k, hk, rfl⟩ := List.mem_map.mp hm
        exact h3 k hk
      · split at hm
        · next hrelay =>
          rw [List.mem_singleton.mp hm]
          exact hn data rest hup hvia hrelay.1
        · simp at hm
    · exact ⟨hs.server, hs.handles, hs.down, hs.client⟩

/-- What the server sends of its own names only ids that it has given out. -/
theorem inv_step {s : Traced ι} {e : Event ι} (he : s.InScope e) (hroot : s.RootOnTop e) (hrelay : s.RelaysNamed via e)
    (hs : s.Inv) : (s.step via e).Inv := by
  -- the handles of the application are named, the root group has no manager
  have hnamed : ∀ {r}, r = root ∨ r ∈ s.handles → (s.system.server.store.heap r).managed = true →
      Named s.created s.system.server.store r := by
    rintro r (rfl | hr) hm
    · exact absurd (hs.server.rootless.symm.trans hm) Bool.false_ne_true
    · exact hs.handles r hr
  cases e with
  | server op =>
    cases op with
    | call c =>
      cases c with
      | create mem f label g => exact hs.create he.1 he.2
      | set r a =>
        exact hs.operate rfl (by simp) (accounted_set hs.server (hnamed he) a) (fun hx => hx.frame (frame_set _ r a))
          (by simp [Server.written, Server.emitted])
      | addChild g r =>
        have hr := hs.handles r (he.2.2.resolve_left hroot)
        exact hs.operate rfl (by simp) (accounted_addChild hs.server hr)
          (fun hx => hx.frame (touched_addChild _ g r).frame) (by simp [Server.written, Server.emitted])
      | removeParameter id =>
        obtain ⟨h1, h2⟩ := accounted_removeParameter hs.server id
        exact hs.operate rfl (by simp) h1 h2 (by simp [Server.written, Server.emitted])
      | update =>
        exact hs.operate rfl (by simp) (Server.accounted_update hs.server)
          (fun hx => hx.congr (Server.sameTree_update _)) (Server.announces_update hs.server)
      | receive depth ch data => exact hs
    | removeChild g r =>
      exact hs.operate rfl (by simp) (accounted_removeChild hs.server (hnamed he.2.2))
        (fun hx => hx.frame (frame_removeChild _ g r)) (by simp [Server.written])
    | clear =>
      exact hs.operate rfl (by simp) (accounted_clear hs.server) (fun hx => ⟨hx.mem, hx.known, hx.built⟩)
        (by simp [Server.written])
    | addTransporter t =>
      have hstore : (s.system.server.operate (.addTransporter t)).store = s.system.server.store := by
        rw [Server.operate, Server.addTransporter]
        split <;> rfl
      exact hs.operate rfl (by simp) (by rw [hstore]; exact hs.server) (fun hx => by rw [hstore]; exact hx)
        (by simp [Server.written])
    | removeTransporter t => exact hs.operate rfl (by simp) hs.server (fun hx => hx) (by simp [Server.written])
  | client i op =>
    cases op with
    | set r a => exact hs.client_step i (Client.holds_set (hs.client i) r a) _ _ fun _ _ h => h
    | addChild g r => exact hs.client_step i (Client.holds_addChild (hs.client i) he) _ _ fun _ _ h => h
    | removeChild g r => exact hs.client_step i (Client.holds_removeChild (hs.client i)) _ _ fun _ _ h => h
    | update => exact hs.client_step i (Client.holds_update (hs.client i)) _ _ fun _ _ h => h
    | receive ch data => exact hs
    | disconnected =>
      exact hs.client_step i (Client.holds_disconnected (hs.client i)) _ _
        (mem_of_mem_update fun m hm => absurd hm List.not_mem_nil)
  | clientSend i data => exact ⟨hs.server, hs.handles, hs.down, hs.client⟩
  | serverReceived i depth ch => exact hs.serverReceived i depth ch hrelay
  | clientReceived i ch => exact hs.clientReceived i ch

omit [DecidableEq ι] in
theorem inv_start (mem : Memory) (ts : List Nat) (memory : ι → Memory) : (start mem ts memory).Inv := by
  have hstore : (start mem ts memory).system.server.store = (Server.new mem).store := Server.store_start mem ts
  have hclient : ∀ m : Memory, Accounted [] (Store.empty m) := by
    refine fun m => ⟨fun hx => ?_, fun {g i r} hx => ?_, fun hx => ?_, rfl, Nat.one_pos⟩
    · simp [Store.empty] at hx
    · simp [Store.empty, Store.children, Parameter.create, Parameter.children, Kind.make] at hx
    · simp [Store.empty] at hx
  refine ⟨?_, by simp [start], by simp [start, System.start], fun i => ⟨hclient _, fun hr => ?_⟩⟩
  · rw [hstore]
    have hm : ((Store.empty mem).heap root).managed ≠ true := Bool.false_ne_true
    exact accounted_set (hclient mem) (fun h => absurd h hm) (.label (.set rootLabel))
  · simp [start, System.start, Client.new, Store.empty, Parameter.create] at hr

/-! ### What the clients send -/

theorem system_step (s : Traced ι) (e : Event ι) : (s.step via e).system = s.system.undergo via e := by
  unfold step
  dsimp only
  split
  · split <;> rfl
  · rfl

/-- An update on its way to the server was there before, is made up, or is one that the client sends. -/
theorem up_step {s : Traced ι} {e : Event ι} {j : ι} {data : Bytes} {id : Id} (hid : announcedId data = some id)
    (h : data ∈ (s.step via e).system.up j) :
    data ∈ s.system.up j ∨ e = .clientSend j data ∨
      e = .client j .update ∧ ∃ m ∈ (s.system.client j).update.1, m.bytes = data := by
  rw [system_step] at h
  -- what is added to one queue
  have hupdate : ∀ {i : ι} {l : List Bytes}, data ∈ Function.update s.system.up i (s.system.up i ++ l) j →
      data ∈ s.system.up j ∨ j = i ∧ data ∈ l := by
    intro i l h
    by_cases hj : j = i
    · subst hj
      rw [Function.update_self, List.mem_append] at h
      exact h.imp_right fun h => ⟨rfl, h⟩
    · rw [Function.update_of_ne hj] at h
      exact Or.inl h
  cases e with
  | server op =>
    by_cases hop : ∃ depth ch data, op = .call (.receive depth ch data)
    · obtain ⟨depth, ch, data, rfl⟩ := hop
      exact Or.inl h
    · rw [System.undergo_server fun depth ch data h => hop ⟨depth, ch, data, h⟩] at h
      exact Or.inl h
  | client i op =>
    cases op with
    | update =>
      refine (hupdate h).imp_right fun hnew => Or.inr ?_
      obtain ⟨rfl, hm⟩ := hnew
      exact ⟨rfl, List.mem_map.mp hm⟩
    | receive | disconnected => exact Or.inl h
    | set | addChild | removeChild => exact Or.inl ((hupdate h).resolve_right (by simp [Client.written]))
  | clientSend i d =>
    refine (hupdate h).imp_right fun hnew => Or.inl ?_
    obtain ⟨rfl, hm⟩ := hnew
    rw [List.mem_singleton.mp hm]
  | serverReceived i depth ch =>
    rw [System.undergo] at h
    cases hup : s.system.up i with
    | nil =>
      rw [hup] at h
      exact Or.inl h
    | cons first rest =>
      rw [hup] at h
      have hrest : data ∈ Function.update s.system.up i rest j := by
        dsimp only at h
        split at h <;> exact h
      refine Or.inl (mem_of_mem_update (fun m hm => ?_) j data hrest)
      rw [hup]
      exact List.mem_cons_of_mem _ hm
  | clientReceived i ch =>
    rw [System.undergo, System.step] at h
    cases hdown : s.system.down i with
    | nil =>
      rw [hdown] at h
      exact Or.inl h
    | cons first rest =>
      rw [hdown] at h
      refine Or.inl ((hupdate h).resolve_right fun hnew => ?_)
      obtain ⟨m, hm, rfl⟩ := List.mem_map.mp hnew.2
      -- answers announce nothing
      have hcommand := Client.replies_received (s.system.client i) ch first m hm
      have hnone := command_of_announcedId hid
      rw [commandOf_bytes, hcommand] at hnone
      simp at hnone

/-- As long as made-up packets name given ids only, so does everything that clients send. -/
theorem upNamed_step {s : Traced ι} {e : Event ι} (he : s.Genuine e) (hs : s.Inv)
    (hup : ∀ i, ∀ data ∈ s.system.up i, Announces s.created data) :
    ∀ i, ∀ data ∈ (s.step via e).system.up i, Announces (s.step via e).created data := by
  have hsub : ∀ id, id ∈ s.created → id ∈ (s.step via e).created := by
    intro id h
    unfold step
    dsimp only
    split
    · split
      · exact List.mem_cons_of_mem _ h
      · exact h
    · exact h
  intro i data hdata id hid
  refine hsub id ?_
  rcases up_step hid hdata with h | rfl | ⟨-, m, hm, rfl⟩
  · exact hup i data h id hid
  · exact he id hid
  · exact Client.announces_update (hs.client i) m hm id hid

/-- Only removals and `clear()` take a parameter of the server away. -/
theorem params_step {s : Traced ι} {e : Event ι} (hs : s.Inv) (hr : ∀ id, e ≠ .server (.call (.removeParameter id)))
    (hc : e ≠ .server .clear) {id : Id} (h : id ∈ s.system.server.store.params) :
    id ∈ (s.step via e).system.server.store.params := by
  rw [system_step]
  cases e with
  | server op =>
    cases op with
    | call c =>
      cases c with
      | create mem f label g =>
        show id ∈ (s.system.server.call (.create mem f label g)).store.params
        rw [Server.call]
        split
        · next r t hcreate =>
          obtain ⟨i, hi⟩ := exists_nextId hcreate
          obtain ⟨rfl, hb⟩ := born_of_create hi hcreate
          dsimp only
          rw [hb.params]
          exact Std.ExtTreeMap.mem_insert.mpr (Or.inr h)
        · exact h
      | set r a => exact (params_set s.system.server.store r a).symm ▸ h
      | addChild g r => exact (touched_addChild s.system.server.store g r).params.symm ▸ h
      | removeParameter id => exact absurd rfl (hr id)
      | update => exact (Server.sameTree_update s.system.server).params.symm ▸ h
      | receive depth ch data => exact h
    | removeChild g r => exact (params_removeChild s.system.server.store g r).symm ▸ h
    | clear => exact absurd rfl hc
    | addTransporter t =>
      show id ∈ (s.system.server.addTransporter t).store.params
      rw [Server.addTransporter]
      split <;> exact h
    | removeTransporter t => exact h
  | client i op => cases op <;> exact h
  | clientSend i data => exact h
  | serverReceived i depth ch =>
    rw [System.undergo]
    split
    · exact h
    · split
      · dsimp only
        rw [Server.params_received hs.server.allocated]
        exact h
      · exact h
  | clientReceived i ch =>
    rw [System.undergo, System.step]
    split <;> exact h

/-- As long as the clients and the server's application are orderly, the server holds what updates on their way
name. -/
theorem awaited_step {s : Traced ι} {e : Event ι} (he : s.Orderly e) (hs : s.Inv)
    (hup : s.system.AwaitedIn s.system.server.store) :
    (s.step via e).system.AwaitedIn (s.step via e).system.server.store := by
  intro i data hdata id hid
  rcases up_step hid hdata with h | rfl | ⟨rfl, m, hm, rfl⟩
  · by_cases hr : ∃ x, e = .server (.call (.removeParameter x))
    · obtain ⟨x, rfl⟩ := hr
      exact he i data h id hid
    · by_cases hc : e = .server .clear
      · subst hc
        exact he i data h id hid
      · exact params_step hs (fun x hx => hr ⟨x, hx⟩) hc (hup i data h id hid)
  · exact params_step hs (by simp) (by simp) (he id hid)
  · obtain ⟨r, hr, rfl⟩ := Client.dirty_of_announced (hs.client i) hm hid
    exact params_step hs (by simp) (by simp) (he r hr)

/-! ### When clients hold exposed parameters -/

section Along

variable {s : Traced ι} {es : List (Event ι)}

omit [DecidableEq ι] in
/-- The server relays updates of its own parameters only exactly if it accepts no others. -/
theorem relaysHeld_iff {e : Event ι} : s.RelaysHeld via e ↔ s.NamesHeld via e := by
  cases e with
  | serverReceived i depth ch =>
    refine forall_congr' fun data => forall_congr' fun rest => imp_congr_right fun _ => imp_congr_right fun _ => ?_
    constructor
    · intro hr hv p hp
      obtain ⟨q, hq, hheld⟩ := hr (by rw [Server.received_of_parameter hv hp])
      rw [hp] at hq
      rw [Option.some.inj hq]
      exact hheld
    · intro hn hrelay
      obtain ⟨p, hv, hp⟩ := Server.parameter_of_relay hrelay
      exact ⟨p, hp, hn hv p hp⟩
  | _ => exact Iff.rfl

/-- Clients hold exposed parameters only as long as the server accepts updates of its own parameters only. -/
theorem exposed_of_namesHeld (hs : s.Inv) (h : Along (step via) InScope s es) (hroot : Along (step via) RootOnTop s es)
    (hn : Along (step via) (NamesHeld via) s es) : Along (step via) (fun s e => (s.step via e).Exposed) s es := by
  induction es generalizing s with
  | nil => trivial
  | cons e es ih =>
    have hrelay : s.RelaysNamed via e := by
      cases e with
      | serverReceived i depth ch =>
        intro data rest hup hvia hrelay id hid
        obtain ⟨p, hv, hp⟩ := Server.parameter_of_relay hrelay
        rw [(identity_of_parse hp).1] at hid
        rw [← Option.some.inj hid]
        exact hs.server.mem (hn.1 data rest hup hvia hv p hp)
      | _ => trivial
    have hstep := inv_step h.1 hroot.1 hrelay hs
    exact ⟨hstep.exposed, ih hstep h.2 hroot.2 hn.2⟩

/-- They do so already if no made-up packet names an id that has not been given out. -/
theorem exposed_of_genuine (hs : s.Inv) (hup : ∀ i, ∀ data ∈ s.system.up i, Announces s.created data)
    (h : Along (step via) InScope s es) (hroot : Along (step via) RootOnTop s es) (hg : Along (step via) Genuine s es) :
    Along (step via) (fun s e => (s.step via e).Exposed) s es := by
  induction es generalizing s with
  | nil => trivial
  | cons e es ih =>
    have hrelay : s.RelaysNamed via e := by
      cases e with
      | serverReceived i depth ch =>
        intro data rest hdata _ _
        exact hup i data (by rw [hdata]; exact List.mem_cons_self)
      | _ => trivial
    have hstep := inv_step h.1 hroot.1 hrelay hs
    exact ⟨hstep.exposed, ih hstep (upNamed_step hg.1 hs hup) h.2 hroot.2 hg.2⟩

/-- If nobody sends an update of what the server does not hold, and no removal crosses an update, the server accepts
updates of its own parameters only. -/
theorem namesHeld_of_orderly (hs : s.Inv) (hup : s.system.AwaitedIn s.system.server.store)
    (h : Along (step via) InScope s es) (hroot : Along (step via) RootOnTop s es) (ho : Along (step via) Orderly s es) :
    Along (step via) (NamesHeld via) s es := by
  induction es generalizing s with
  | nil => trivial
  | cons e es ih =>
    have hn : s.NamesHeld via e := by
      cases e with
      | serverReceived i depth ch =>
        intro data rest hdata _ _ p hp
        exact hup i data (by rw [hdata]; exact List.mem_cons_self) _ (identity_of_parse hp).1
      | _ => trivial
    have hrelay : s.RelaysNamed via e := by
      cases e with
      | serverReceived i depth ch =>
        intro data rest hdata _ _ id hid
        exact hs.server.mem (hup i data (by rw [hdata]; exact List.mem_cons_self) id hid)
      | _ => trivial
    exact ⟨hn, ih (inv_step h.1 hroot.1 hrelay hs) (awaited_step ho.1 hs hup) h.2 hroot.2 ho.2⟩

end Along

/-- In a run in which the root group is not put into a group, the clients hold only parameters that the server has
created and only updates of parameters of the server are relayed, exactly if the server accepts no update of a
parameter that it does not hold.  That is so if every update is sent while the server holds the parameter and arrives
before the parameter is removed.  For the first half it is enough that made-up packets name ids that the server has
given out. -/
theorem clients_hold_exposed_iff (mem : Memory) (ts : List Nat) (memory : ι → Memory) (es : List (Event ι))
    (h : Along (step via) InScope (start mem ts memory) es)
    (hroot : Along (step via) RootOnTop (start mem ts memory) es) :
    (Along (step via) (fun s e => s.RelaysHeld via e ∧ (s.step via e).Exposed) (start mem ts memory) es ↔
        Along (step via) (NamesHeld via) (start mem ts memory) es) ∧
      (Along (step via) Orderly (start mem ts memory) es →
        Along (step via) (fun s e => s.RelaysHeld via e ∧ (s.step via e).Exposed) (start mem ts memory) es) ∧
      (Along (step via) Genuine (start mem ts memory) es →
        Along (step via) (fun s e => (s.step via e).Exposed) (start mem ts memory) es) := by
  have hinv := inv_start mem ts memory
  have hnames : Along (step via) (fun s e => s.RelaysHeld via e ∧ (s.step via e).Exposed) (start mem ts memory) es ↔
      Along (step via) (NamesHeld via) (start mem ts memory) es := by
    constructor
    · exact Along.imp fun s e hs => relaysHeld_iff.mp hs.1
    · exact fun hn => (hn.imp fun s e => relaysHeld_iff.mpr).and (exposed_of_namesHeld hinv h hroot hn)
  refine ⟨hnames, fun ho => hnames.mpr (namesHeld_of_orderly hinv ?_ h hroot ho), exposed_of_genuine hinv ?_ h hroot⟩
  · intro i data hdata
    simp [start, System.start] at hdata
  · intro i data hdata
    simp [start, System.start] at hdata

/-- A parameter reaches two clients, a change of one of them reaches the other, and then the parameter is removed, the
server cleared and its transporter taken away. -/
def sharedChange : List (Event (Fin 2)) :=
  [.server (.call (.create {} .createBooleanParameter [] root)), .server (.call .update),
    .clientReceived firstClient ⟨{}, fun _ => 0⟩, .clientReceived secondClient ⟨{}, fun _ => 0⟩,
    .client firstClient (.set 1 (.setValue (τ := .boolean) true)), .client firstClient .update,
    .serverReceived firstClient 0 ⟨{}, fun _ => 0⟩, .clientReceived secondClient ⟨{}, fun _ => 0⟩,
    .server (.removeChild root 1), .server (.call (.removeParameter 1)), .server .clear, .server (.removeTransporter 0)]

theorem clients_hold_exposed_sharedChange :
    Along (step fun _ => 0) (fun s e => s.RelaysHeld (fun _ => 0) e ∧ (s.step (fun _ => 0) e).Exposed)
      (start {} [0] fun _ => {}) sharedChange := by
  have hscope : Along (step fun _ => 0) InScope (start {} [0] fun _ => {}) sharedChange :=
    ⟨⟨by decide, Or.inl rfl⟩, trivial, trivial, trivial, trivial, trivial, trivial, trivial,
      ⟨by decide, Or.inl rfl, Or.inr (by decide)⟩, trivial, trivial, trivial, trivial⟩
  have hroot : Along (step fun _ => 0) RootOnTop (start {} [0] fun _ => {}) sharedChange := by
    simp [sharedChange, Along, RootOnTop]
  -- the client changes a parameter of the server, and nothing is on its way when the parameter is removed
  let s (n : Nat) : Traced (Fin 2) := run (step fun _ => 0) (start {} [0] fun _ => {}) (sharedChange.take n)
  have hsent : ∀ r ∈ ((s 5).system.client firstClient).store.dirtyRefs,
      ((s 5).system.client firstClient).store.idOf r ∈ (s 5).system.server.store.params := by decide
  have hremoved : ∀ i, (s 9).system.up i = [] := by decide
  have hcleared : ∀ i, (s 10).system.up i = [] := by decide
  refine (clients_hold_exposed_iff {} [0] (fun _ => {}) sharedChange hscope hroot).2.1
    ⟨trivial, trivial, trivial, trivial, trivial, hsent, trivial, trivial, trivial, fun i data hdata => ?_,
      fun i data hdata => ?_, trivial, trivial⟩
  · exact absurd (hremoved i ▸ hdata) List.not_mem_nil
  · exact absurd (hcleared i ▸ hdata) List.not_mem_nil

/-- A client sends an update of a parameter that nobody has created. -/
def phantom : List (Event (Fin 2)) :=
  [.clientSend firstClient [6, 0, 7, 16, 1], .serverReceived firstClient 0 ⟨{}, fun _ => 0⟩,
    .clientReceived secondClient ⟨{}, fun _ => 0⟩]

/-- A client changes a parameter that the server is about to remove. -/
def crossing : List (Event (Fin 2)) :=
  [.server (.call (.create {} .createBooleanParameter [] root)), .server (.call .update),
    .clientReceived firstClient ⟨{}, fun _ => 0⟩, .client firstClient (.set 1 (.setValue (τ := .boolean) true)),
    .server (.call (.removeParameter 1)), .client firstClient .update, .serverReceived firstClient 0 ⟨{}, fun _ => 0⟩]

/-- The root group is put into one of its groups, and a client asks for everything. -/
def buried : List (Event (Fin 2)) :=
  [.server (.call (.create {} .createGroupParameter [] root)), .server (.call (.addChild 1 root)),
    .clientSend firstClient [2, 0], .serverReceived firstClient 2 ⟨{}, fun _ => 0⟩,
    .clientReceived firstClient ⟨{}, fun _ => 0⟩, .clientReceived firstClient ⟨{}, fun _ => 0⟩]

/-- In the first run another client gets the parameter, in the second one the update of a removed parameter is
relayed, and in the third one a client gets the root group. -/
theorem phantom_held :
    ¬Along (step fun _ => 0) (fun s e => s.RelaysHeld (fun _ => 0) e ∧ (s.step (fun _ => 0) e).Exposed)
        (start {} [0] fun _ => {}) phantom ∧
      ¬Along (step fun _ => 0) (fun s e => s.RelaysHeld (fun _ => 0) e ∧ (s.step (fun _ => 0) e).Exposed)
          (start {} [0] fun _ => {}) crossing ∧
        ¬Along (step fun _ => 0) (fun s e => s.RelaysHeld (fun _ => 0) e ∧ (s.step (fun _ => 0) e).Exposed)
          (start {} [0] fun _ => {}) buried := by
  refine ⟨?_, ?_, ?_⟩
  · rintro ⟨-, -, h, -⟩
    exact absurd (h.2 1 7 (by decide)) (by decide)
  · rintro ⟨-, -, -, -, -, -, h, -⟩
    obtain ⟨p, hp, hheld⟩ := h.1 [6, 0, 1, 16, 1] [] (by decide) (by decide) (by decide)
    have hid := (identity_of_parse hp).1
    rw [show announcedId [6, 0, 1, 16, 1] = some 1 by decide] at hid
    rw [← Option.some.inj hid] at hheld
    exact absurd hheld (by decide)
  · rintro ⟨-, -, -, -, -, h, -⟩
    exact absurd (h.2 0 0 (by decide)) (by decide)

end Traced

end RabbitControl

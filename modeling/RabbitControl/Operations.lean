import RabbitControl.ClientLemmas
import RabbitControl.ParseFrame

/-!
# Operations

All that an application, a connection or a packet makes a server or a client do to its store.  Each operation is put
together from a few elementary ones, and `ServerKept.run` and `ClientKept.run` carry what the elementary operations keep
along every run.
-/

namespace RabbitControl

open Lib

inductive ServerOp
  | call (c : Call)
  | removeChild (g r : Ref)
  | clear
  | addTransporter (t : Nat)
  | removeTransporter (t : Nat)

inductive ClientOp
  | set (r : Ref) (a : Setter)
  | addChild (g r : Ref)
  | removeChild (g r : Ref)
  | update
  | receive (ch : Chance) (data : Bytes)
  | disconnected

def Server.removeTransporter (t : Nat) (s : Server) : Server :=
  { s with transporterList := s.transporterList.erase t }

def Server.operate (s : Server) : ServerOp → Server
  | .call c => s.call c
  | .removeChild g r => s.mapStore (·.removeChild g r)
  | .clear => s.mapStore Store.clear
  | .addTransporter t => s.addTransporter t
  | .removeTransporter t => s.removeTransporter t

def Client.operate (c : Client) : ClientOp → Client
  | .set r a => { c with store := c.store.set r a }
  | .addChild g r => { c with store := c.store.addChild g r }
  | .removeChild g r => { c with store := c.store.removeChild g r }
  | .update => c.update.2
  | .receive ch data => (c.received ch data).1
  | .disconnected => c.disconnected

/-- The handles that an application passes to an operation are allowed ones. -/
def ServerOp.Handles (ok : Store → Ref → Prop) (s : Server) : ServerOp → Prop
  | .call (.create _ _ _ g) => ok s.store g
  | .call (.set r _) => ok s.store r
  | .call (.addChild g r) | .removeChild g r => ok s.store g ∧ ok s.store r
  | _ => True

def ClientOp.Handles (ok : Store → Ref → Prop) (c : Client) : ClientOp → Prop
  | .set r _ => ok c.store r
  | .addChild g r | .removeChild g r => ok c.store g ∧ ok c.store r
  | _ => True

namespace Store

/-- What the elementary operations keep that servers and clients share.  The parameters that they are called on are
among those that `ok` allows. -/
structure Kept (ok : Store → Ref → Prop) (P : Store → Prop) : Prop where
  frame : ∀ {s t x}, Frame s t → (ok t x ↔ ok s x)
  cached : ∀ {s} {id : Id} {r}, P s → s.params[id]? = some r → ok s r
  parent : ∀ {s r g}, P s → s.parent r = some g → ok s g
  child : ∀ {s g} {id : Id} {c}, P s → (s.children g)[id]? = some c → ok s c
  set : ∀ {s r} (a), P s → ok s r → P (s.set r a)
  addChild : ∀ {s g r}, P s → ok s g → ok s r → P (s.addChild g r)
  removeChild : ∀ {s g r}, P s → ok s g → ok s r → P (s.removeChild g r)
  unlink : ∀ {s r}, P s → ok s r → P (s.unlink r)
  written : ∀ {s} (r all), P s → P (s.put r ((s.heap r).write s.idOf all).2)
  sent : ∀ {s}, P s → P { s with dirtyParameter := ∅ }
  cleared : ∀ {s}, P s → P s.clear
  parsed : ∀ {s} (ch data), P s → P (s.parse ch data).state

structure ServerKept (ok : Store → Ref → Prop) (P : Store → Prop) : Prop extends Kept ok P where
  created : ∀ {s mem f label g r t}, P s → ok s g → s.create mem f label g = some (r, t) → P t
  retired : ∀ {s} {id : Id} {r}, P s → s.params[id]? = some r → P (s.setParameterRemoved r)
  removesSent : ∀ {s}, P s → P { s with removedParameter := ∅ }

structure ClientKept (ok : Store → Ref → Prop) (P : Store → Prop) : Prop extends Kept ok P where
  added : ∀ {s r}, P s → r < s.next → s.idOf r ∉ s.params → P (s.addParameter r)

variable {ok : Store → Ref → Prop} {P : Store → Prop} {s : Store} {r other : Ref}

namespace Kept

variable (h : Kept ok P)

include h

private theorem updateOption {α : Type} (o : Option α) (setter : α → Setter) (changed : Parameter → Bool)
    {w : Store × Bool} (hw : P w.1) (hr : ok w.1 r) :
    P (updateOption r o setter changed w).1 ∧ ok (Store.updateOption r o setter changed w).1 r := by
  unfold Store.updateOption
  split
  · exact ⟨hw, hr⟩
  · exact ⟨h.set _ hw hr, (h.frame (frame_set ..)).mpr hr⟩

/-- `update` is a row of setters, with an `addChild` among them. -/
theorem update (hs : P s) (hr : ok s r) : P (s.update r other).1 := by
  unfold Store.update
  split
  · exact hs
  split
  · dsimp only
    have h0 : P (s.updateValue r other).1 ∧ ok (s.updateValue r other).1 r := by
      unfold updateValue
      split
      · split
        · split
          · exact ⟨hs, hr⟩
          · exact ⟨h.set _ hs hr, (h.frame (frame_set ..)).mpr hr⟩
        · exact ⟨hs, hr⟩
      · exact ⟨hs, hr⟩
    set t := (s.updateValue r other).1
    unfold updateBase
    dsimp only
    set q := t.heap other with hq
    -- the options before the parent
    set w := Store.updateOption r q.order.get? .setOrder (·.order.changed)
      (Store.updateOption r q.tags.get? .setTags (·.tags.changed)
        (Store.updateOption r (if q.description.has then some q.description.content else none) (.description <| .set ·)
          (·.description.changed)
          (Store.updateOption r (if q.label.has then some q.label.content else none) (.label <| .set ·)
            (·.label.changed) (t, false)))) with hw
    have h1 : P w.1 ∧ ok w.1 r := by
      have ha := h.updateOption (r := r) (if q.label.has then some q.label.content else none) (.label <| .set ·)
        (·.label.changed) (w := (t, false)) h0.1 h0.2
      have hb := h.updateOption (r := r) (if q.description.has then some q.description.content else none)
        (.description <| .set ·) (·.description.changed) ha.1 ha.2
      have hc := h.updateOption (r := r) q.tags.get? .setTags (·.tags.changed) hb.1 hb.2
      exact h.updateOption (r := r) q.order.get? .setOrder (·.order.changed) hc.1 hc.2
    -- the options after the parent
    have h2 : ∀ w : Store × Bool, P w.1 → ok w.1 r →
        P (Store.updateOption r q.readonly.get? .setReadonly (·.readonly.changed)
          (Store.updateOption r q.userid.get? .setUserid (·.userid.changed)
            (Store.updateOption r q.userdata.get? .setUserdata (·.userdata.changed) w))).1 := by
      intro w hw hr
      have ha := h.updateOption (r := r) q.userdata.get? .setUserdata (·.userdata.changed) hw hr
      have hb := h.updateOption (r := r) q.userid.get? .setUserid (·.userid.changed) ha.1 ha.2
      exact (h.updateOption (r := r) q.readonly.get? .setReadonly (·.readonly.changed) hb.1 hb.2).1
    cases hp : q.parent with
    | none => exact h2 _ h1.1 h1.2
    | some g =>
      have hg : ok w.1 g := by
        have ht : ok t g := h.parent (r := other) h0.1 hp
        have hf : Frame t w.1 := by
          refine ((assigned_updateOption _ _ _ (t, false)).trans ((assigned_updateOption ..).trans
            ((assigned_updateOption ..).trans (assigned_updateOption ..)))).touched.frame
        exact (h.frame hf).mpr ht
      exact h2 (w.1.addChild g r, _) (h.addChild h1.1 hg h1.2)
        ((h.frame (touched_addChild w.1 g r).frame).mpr h1.2)
  · exact hs

theorem removeParameterDirect (n : Nat) (hs : P s) (hr : ok s r) : P (removeParameterDirect n r s) := by
  refine (removeParameterDirect_invariant (P := fun t => Frame s t ∧ P t) (Q := ok s) (fun {t x} ht hx _ => ?_)
    (fun ht _ _ hc => ?_) n ⟨.refl s, hs⟩ hr).2
  · exact ⟨ht.1.trans (frame_unlink t x), h.unlink ht.2 ((h.frame ht.1).mpr hx)⟩
  · exact (h.frame ht.1).mp (h.child ht.2 hc)

theorem writeDirty (l : List Ref) (hs : P s) : P (writeDirty l s).2 := by
  induction l generalizing s with
  | nil => exact hs
  | cons x l ih => exact ih (h.written x false hs)

theorem writeFull (l : List Ref) (hs : P s) : P (writeFull l s).2 := by
  induction l generalizing s with
  | nil => exact hs
  | cons x l ih => exact ih (h.written x true hs)

end Kept

end Store

/-! ### Servers -/

section Server

open Store

variable {ok : Store → Ref → Prop} {P : Store → Prop} {s : Server}

theorem Store.ServerKept.received (h : ServerKept ok P) (depth : Nat) (ch : Chance) (data : Bytes) (hs : P s.store) :
    P (s.received depth ch data).server.store := by
  have hp := h.parsed ch data hs
  by_cases hi : IsInit data
  · rw [Server.received_of_init hi]
    split
    · dsimp only
      rw [Server.sendAll_eq]
      exact h.writeFull _ hs
    · exact hs
  by_cases hv : (s.store.parse ch data).verdict = .accepted ∧
      ((s.store.parse ch data).packet.bind Packet.parameter).isSome = true
  · obtain ⟨p, hpar⟩ := Option.isSome_iff_exists.mp hv.2
    rw [Server.received_of_parameter hv.1 hpar]
    dsimp only
    unfold Server.applyUpdate
    split
    · next cached hc =>
      split
      · exact h.update hp (h.cached hp hc)
      · exact hp
    · exact hp
  · rw [(Server.received_of_no_parameter hi fun ha => ?_).1]
    · exact hp
    · simpa [ha] using hv

theorem Store.ServerKept.update (h : ServerKept ok P) (hs : P s.store) : P s.update.2.store := by
  unfold Server.update
  split
  · exact hs
  · exact h.removesSent (h.sent (h.writeDirty _ hs))

theorem Store.ServerKept.removeParameter (h : ServerKept ok P) (id : Id) {t : Store} (ht : P t) :
    P (t.removeParameter id) := by
  unfold Store.removeParameter
  split
  · exact ht
  split
  · exact ht
  · next r hr =>
    have hret := h.retired ht hr
    have hr' : t.params[id]? = some r := hr
    exact h.removeParameterDirect _ hret (h.cached hret hr')

/-- Every operation of a server keeps what the elementary operations keep. -/
theorem Store.ServerKept.operate (h : ServerKept ok P) (s : Server) (op : ServerOp) (hok : op.Handles ok s)
    (hs : P s.store) : P (s.operate op).store := by
  cases op with
  | clear => exact h.cleared hs
  | removeChild g r => exact h.removeChild hs hok.1 hok.2
  | addTransporter t =>
    rw [Server.operate, Server.addTransporter]
    split <;> exact hs
  | removeTransporter t => exact hs
  | call c =>
    cases c with
    | create mem f label g =>
      show P (s.call (.create mem f label g)).store
      rw [Server.call]
      split
      · next hc => exact h.created hs hok hc
      · exact hs
    | set r a => exact h.set a hs hok
    | addChild g r => exact h.addChild hs hok.1 hok.2
    | removeParameter id => exact h.removeParameter id hs
    | update => exact h.update hs
    | receive depth ch data => exact h.received depth ch data hs

theorem Store.ServerKept.run (h : ServerKept ok P) (ops : List ServerOp)
    (hok : Along Server.operate (fun s op => op.Handles ok s) s ops) (hs : P s.store) :
    P (run Server.operate s ops).store :=
  along_invariant (I := fun s => P s.store) h.operate hok hs

end Server

/-! ### Clients -/

section Client

open Store

variable {ok : Store → Ref → Prop} {P : Store → Prop} {c : Client}

/-- A parsed parameter takes the next reference. -/
theorem Store.next_parse {s : Store} {ch : Chance} {data : Bytes} {p : Parameter}
    (hp : (s.parse ch data).packet.bind Packet.parameter = some p) : (s.parse ch data).state.next = s.next + 1 := by
  rw [Store.packet_parse] at hp
  unfold Store.parse
  dsimp only
  rw [hp]

theorem Store.ClientKept.received (h : ClientKept ok P) (ch : Chance) (data : Bytes) (hc : P c.store) :
    P (c.received ch data).1.store := by
  have hp := h.parsed ch data hc
  unfold Client.received
  dsimp only
  split
  · next k _ hk =>
    obtain ⟨command, timestamp, body⟩ := k
    have happly : ∀ p, body = some (.parameter p) →
        P (Client.applyUpdate c.store.next (c.store.parse ch data).state) := by
      intro p hb
      have hnext : (c.store.parse ch data).state.next = c.store.next + 1 :=
        next_parse (p := p) (by rw [hk, hb]; rfl)
      have hadd : P ((c.store.parse ch data).state.addParameter c.store.next) := by
        by_cases hid : (c.store.parse ch data).state.idOf c.store.next ∈ (c.store.parse ch data).state.params
        · rw [Store.addParameter, if_pos hid]
          exact hp
        · exact h.added hp (by rw [hnext]; exact Nat.lt_succ_self _) hid
      unfold Client.applyUpdate
      split
      · next cached hcached =>
        split
        · exact h.update hp (h.cached hp hcached)
        · exact hadd
      · exact hadd
    have hremove : ∀ i, P (Client.applyRemove i (c.store.parse ch data).state) := by
      intro i
      unfold Client.applyRemove
      split
      · next cached hcached =>
        split
        · exact h.removeParameterDirect _ hp (h.cached hp hcached)
        · exact hp
      · exact hp
    rcases body with _ | ⟨p⟩ | i | _
    · cases command <;> exact hp
    · cases command
      case update => exact happly p rfl
      case updateValue => exact happly p rfl
      all_goals exact hp
    · cases command
      case remove => exact hremove i
      all_goals exact hp
    · cases command <;> exact hp
  · exact hp

/-- Every operation of a client keeps what the elementary operations keep. -/
theorem Store.ClientKept.operate (h : ClientKept ok P) (c : Client) (op : ClientOp) (hok : op.Handles ok c)
    (hc : P c.store) : P (c.operate op).store := by
  cases op with
  | set r a => exact h.set a hc hok
  | addChild g r => exact h.addChild hc hok.1 hok.2
  | removeChild g r => exact h.removeChild hc hok.1 hok.2
  | update => exact h.sent (h.writeDirty _ hc)
  | receive ch data => exact h.received ch data hc
  | disconnected => exact h.cleared hc

theorem Store.ClientKept.run (h : ClientKept ok P) (ops : List ClientOp)
    (hok : Along Client.operate (fun c op => op.Handles ok c) c ops) (hc : P c.store) :
    P (run Client.operate c ops).store :=
  along_invariant (I := fun c => P c.store) h.operate hok hc

end Client

end RabbitControl

import RabbitControl.Lib.Run
import RabbitControl.Peers

/-!
# Calls on a server

The calls that an application and its clients make on a `ParameterServer`.  A handle of the application is a
reference, so a call may well be made on a parameter that has been removed.
-/

namespace RabbitControl

open Lib

inductive Call
  | create (mem : Memory) (f : CreateFunction) (label : Bytes) (group : Ref)
  | set (r : Ref) (a : Setter)
  | addChild (g r : Ref)
  | removeParameter (id : Id)
  | update
  | receive (depth : Nat) (ch : Chance) (data : Bytes)

namespace Server

def mapStore (f : Store → Store) (s : Server) : Server := { s with store := f s.store }

/-- A call; a `create…Parameter` that throws has not changed anything. -/
def call (s : Server) : Call → Server
  | .create mem f label g =>
    match s.store.create mem f label g with
    | some (_, t) => { s with store := t }
    | none => s
  | .set r a => s.mapStore (·.set r a)
  | .addChild g r => s.mapStore (·.addChild g r)
  | .removeParameter id => s.mapStore (·.removeParameter id)
  | .update => s.update.2
  | .receive depth ch data => (s.received depth ch data).server

/-- The packets that a call makes the server write. -/
def emitted (s : Server) : Call → List Message
  | .update => s.update.1
  | .receive depth ch data => (s.received depth ch data).replies
  | _ => []

/-- The packets of a run. -/
def emissions (s : Server) : List Call → List Message
  | [] => []
  | c :: cs => s.emitted c ++ (s.call c).emissions cs

/-- A new server with its transporters. -/
def start (mem : Memory) (transporters : List Nat) : Server :=
  transporters.foldl (fun s t => s.addTransporter t) (new mem)

theorem store_start (mem : Memory) (ts : List Nat) : (start mem ts).store = (new mem).store := by
  have hstore : ∀ s : Server, (ts.foldl (fun s t => s.addTransporter t) s).store = s.store := by
    induction ts with
    | nil => exact fun _ => rfl
    | cons t ts ih =>
      intro s
      rw [List.foldl_cons, ih, addTransporter]
      split <;> rfl
  exact hstore _

theorem transporterList_start (mem : Memory) {ts : List Nat} (hts : ts ≠ []) :
    (start mem ts).transporterList ≠ [] := by
  have hlist : ∀ (ts : List Nat) (s : Server), s.transporterList ≠ [] →
      (ts.foldl (fun s t => s.addTransporter t) s).transporterList ≠ [] := by
    intro ts
    induction ts with
    | nil => exact fun _ h => h
    | cons t ts ih =>
      intro s h
      rw [List.foldl_cons]
      refine ih _ ?_
      unfold addTransporter
      split
      · exact h
      · simp
  cases ts with
  | nil => exact absurd rfl hts
  | cons t ts =>
    rw [start, List.foldl_cons]
    refine hlist ts _ ?_
    simp [addTransporter, new]

end Server

/-- A packet with the command `INITIALIZE`. -/
def IsInit (data : Bytes) : Prop := commandOf data = some .init

instance : DecidablePred IsInit := fun _ => inferInstanceAs (Decidable (_ = _))

end RabbitControl

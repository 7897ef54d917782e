import RabbitControl.Parameter

/-!
# The parameter store

A `ParameterManager` with the parameter objects it can reach (`parametermanager.cpp`, `parameter_group.cpp`).  The
heap holds every object that was ever built, so a handle of the application stays good after its parameter has been
removed.  Reference `root` is the root group of the server, which has id `0` and no manager.
-/

namespace RabbitControl

open Lib

/-- The `create…Parameter` functions of the server. -/
inductive CreateFunction
  | createBooleanParameter
  | createInt8Parameter
  | createInt16Parameter
  | createInt32Parameter
  | createInt64Parameter
  | createFloat32Parameter
  | createFloat64Parameter
  | createStringParameter
  | createRGBAParameter
  | createBangParameter
  | createGroupParameter
  deriving DecidableEq

/-- The type of the parameter that a `create…Parameter` function builds. -/
def CreateFunction.type : CreateFunction → ParameterType
  | createBooleanParameter => .value .boolean
  | createInt8Parameter => .value (.number .int8)
  | createInt16Parameter => .value (.number .int16)
  | createInt32Parameter => .value (.number .int32)
  | createInt64Parameter => .value (.number .int64)
  | createFloat32Parameter => .value (.number .float32)
  | createFloat64Parameter => .value (.number .float64)
  | createStringParameter => .value .string
  | createRGBAParameter => .value .rgba
  | createBangParameter => .bang
  | createGroupParameter => .group

structure Store where
  heap : Ref → Parameter
  next : Ref
  ids : Finset Int16
  params : Std.ExtTreeMap Int16 Ref
  dirtyParameter : Std.ExtTreeMap Int16 Ref
  removedParameter : Std.ExtTreeMap Int16 Ref

def root : Ref := 0

namespace Store

/-- A manager without parameters, next to the root group. -/
def empty (mem : Memory) : Store where
  heap := fun _ => .create mem 0 .group
  next := 1
  ids := ∅
  params := ∅
  dirtyParameter := ∅
  removedParameter := ∅

def idOf (s : Store) (r : Ref) : Id := (s.heap r).parameterId

def children (s : Store) (g : Ref) : Std.ExtTreeMap Int16 Ref := (s.heap g).children

def put (r : Ref) (p : Parameter) (s : Store) : Store :=
  { s with heap := fun r' => if r' = r then p else s.heap r' }

def modify (r : Ref) (f : Parameter → Parameter) (s : Store) : Store := s.put r (f (s.heap r))

/-! ### Dirty and removed parameters -/

def setParameterDirty (r : Ref) (s : Store) : Store :=
  if s.idOf r ∈ s.removedParameter then s
  else { s with dirtyParameter := s.dirtyParameter.insert (s.idOf r) r }

/-- `setDirty()` does nothing as long as the parameter has no manager. -/
def setDirty (r : Ref) (s : Store) : Store := if (s.heap r).managed then s.setParameterDirty r else s

def setParameterRemoved (r : Ref) (s : Store) : Store :=
  { s with
    dirtyParameter := s.dirtyParameter.erase (s.idOf r)
    removedParameter := s.removedParameter.insert (s.idOf r) r }

/-- A setter called on a handle. -/
def set (r : Ref) (a : Setter) (s : Store) : Store :=
  let p := (s.heap r).apply a
  let s := s.put r p.1
  if p.2 then s.setDirty r else s

/-! ### The group tree -/

def clearParent (r : Ref) (s : Store) : Store :=
  (s.modify r fun p => { p with parent := none, parentChanged := true }).setDirty r

/-- `removeChild` goes by the id of the child. -/
def removeChild (g r : Ref) (s : Store) : Store :=
  if s.idOf r ∈ s.children g then
    (s.clearParent r).modify g (Parameter.modifyChildren (·.erase (s.idOf r)))
  else s

def setParent (r g : Ref) (s : Store) : Store :=
  let finish := fun s : Store =>
    (s.modify r fun p => { p with parent := some g, parentChanged := true }).setDirty r
  match (s.heap r).parent with
  | some p => if s.idOf g = s.idOf p then s else finish (s.removeChild p r)
  | none => finish s

/-- `addChild` keeps a child that is already there under the id. -/
def addChild (g r : Ref) (s : Store) : Store :=
  let s := if s.idOf r ∈ s.children g then s
    else s.modify g (Parameter.modifyChildren (·.insert (s.idOf r) r))
  s.setParent r g

/-! ### Removal -/

/-- The recursion goes through the children that are present when the loop starts. -/
def removeParameterDirect : Nat → Ref → Store → Store
  | 0, _, s => s
  | n + 1, r, s =>
    if (s.heap r).isValid then
      let s := { s with ids := s.ids.erase (s.idOf r) }
      let s := match (s.heap r).parent with
        | some p => s.removeChild p r
        | none => s
      let s := { s with params := s.params.erase (s.idOf r) }
      (s.children r).toList.foldl (fun s c => removeParameterDirect n c.2 s) s
    else s

/-- `removeParameter(short id)`. -/
def removeParameter (id : Id) (s : Store) : Store :=
  if id = 0 then s
  else
    match s.params[id]? with
    | none => s
    | some r => (s.setParameterRemoved r).removeParameterDirect (s.next + 1) r

/-! ### Creation -/

/-- The lowest free id from `1` to `65534`, as a `short`. -/
def firstFree (ids : Finset Int16) : Nat → Nat → Option Int16
  | 0, _ => none
  | n + 1, i => if Int16.ofNat i ∈ ids then firstFree ids n (i + 1) else some (Int16.ofNat i)

def nextId (s : Store) : Option Int16 := firstFree s.ids 65534 1

/-- `_addParameterDirect`, called when the server exposes a parameter. -/
def addParameterDirect (label : Bytes) (r group : Ref) (s : Store) : Store :=
  let s := s.modify r fun p => { p with managed := true }
  let s := s.set r (.label (.set label))
  let s := s.setDirty r
  let s := s.addChild group r
  { s with params := s.params.insert (s.idOf r) r }

/-- The `create…Parameter` functions; `none` when `getNextId` finds no free id and they throw. -/
def create (mem : Memory) (f : CreateFunction) (label : Bytes) (group : Ref) (s : Store) : Option (Ref × Store) :=
  match s.nextId with
  | none => none
  | some id =>
    let r := s.next
    let s := { s with ids := insert id s.ids, next := r + 1 }.put r (.create mem id f.type)
    some (r, s.addParameterDirect label r group)

/-- `_addParameter`, called when a client gets a parameter it does not hold. -/
def addParameter (r : Ref) (s : Store) : Store :=
  if s.idOf r ∈ s.params then s
  else
    let s := { s with ids := insert (s.idOf r) s.ids }.modify r fun p => { p with managed := true }
    let s := match (s.heap r).parent with
      | some g => s.addChild g r
      | none => s
    { s with params := s.params.insert (s.idOf r) r }

def clear (s : Store) : Store :=
  { s with ids := ∅, params := ∅, dirtyParameter := ∅, removedParameter := ∅ }

/-! ### Updates from a parsed parameter -/

/-- The callbacks that an update runs. -/
inductive Callback
  | valueUpdated
  | updated
  deriving DecidableEq

/-- `if (other->hasX()) { setX(other->getX()); updated |= xChanged; }`. -/
def updateOption {α : Type} (r : Ref) (other : Option α) (setter : α → Setter) (changed : Parameter → Bool)
    (s : Store × Bool) : Store × Bool :=
  match other with
  | none => s
  | some v =>
    let t := s.1.set r (setter v)
    (t, s.2 || changed (t.heap r))

/-- `Parameter::update`: take over the options that the other parameter has. -/
def updateBase (r other : Ref) (s : Store) : Store × List Callback :=
  let q := s.heap other
  let w := updateOption r (if q.label.has then some q.label.content else none) (.label <| .set ·)
    (·.label.changed) (s, false)
  let w := updateOption r (if q.description.has then some q.description.content else none)
    (.description <| .set ·) (·.description.changed) w
  let w := updateOption r q.tags.get? .setTags (·.tags.changed) w
  let w := updateOption r q.order.get? .setOrder (·.order.changed) w
  let w := match q.parent with
    | none => w
    | some g =>
      let t := w.1.addChild g r
      (t, w.2 || (t.heap r).parentChanged)
  let w := updateOption r q.userdata.get? .setUserdata (·.userdata.changed) w
  let w := updateOption r q.userid.get? .setUserid (·.userid.changed) w
  let w := updateOption r q.readonly.get? .setReadonly (·.readonly.changed) w
  (w.1, if w.2 then [.updated] else [])

/-- The value part of `ValueParameter::update`, between parameters of one C++ type. -/
def updateValue (r other : Ref) (s : Store) : Store × List Callback :=
  match (s.heap r).kind, (s.heap other).kind with
  | .value τ _ _, .value σ _ v =>
    if σ = τ then
      match v.get? with
      | none => (s, [])
      | some v =>
        let t := s.set r (.setValue v)
        (t, if (t.heap r).changed .value then [.valueUpdated] else [])
    else (s, [])
  | _, _ => (s, [])

/-- `update(other)`; a parameter of another id is refused. -/
def update (r other : Ref) (s : Store) : Store × List Callback :=
  if other = r then (s, [])
  else if s.idOf other = s.idOf r then
    let w := s.updateValue r other
    let b := w.1.updateBase r other
    (b.1, w.2 ++ b.2)
  else (s, [])

end Store

end RabbitControl

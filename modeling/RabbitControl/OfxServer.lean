import RabbitControl.Pairing

/-!
# The server of the addon

`ofxRabbitControlServer` (`ofxRabbitControl.h`, `ofxRabbitControl.cpp`) exposes values of an application as parameters.
It finds the parameter of a value through the address of the value, in two maps from addresses to ids: one for single
values, one for groups.
-/

namespace RabbitControl

open Lib

/-- The types of values that are exposed. -/
inductive OfType
  | bool | char | int | float | double | string | color | floatColor
  deriving DecidableEq

namespace OfType

/-- The function that creates the parameter of a value. -/
def createFunction : OfType → CreateFunction
  | bool => .createBooleanParameter
  | char => .createInt8Parameter
  | int => .createInt32Parameter
  | float => .createFloat32Parameter
  | double => .createFloat64Parameter
  | string => .createStringParameter
  | color | floatColor => .createRGBAParameter

@[reducible] def valueType : OfType → ValueType
  | bool => .boolean
  | char => .number .int8
  | int => .number .int32
  | float => .number .float32
  | double => .number .float64
  | string => .string
  | color | floatColor => .rgba

end OfType

/-- An `ofParameter`.  A colour is kept as the number that its parameter gets. -/
structure OfParameter (t : OfType) where
  name : Bytes
  minimum : t.valueType.Val
  maximum : t.valueType.Val
  value : t.valueType.Val

/-- The setters that `expose` calls on a new parameter: the limits of a number, and the value. -/
def OfParameter.setters : {t : OfType} → OfParameter t → List Setter
  | .char, p => [.definition (τ := .number .int8) (.number (.setMinimum p.minimum)),
      .definition (τ := .number .int8) (.number (.setMaximum p.maximum)), .setValue (τ := .number .int8) p.value]
  | .int, p => [.definition (τ := .number .int32) (.number (.setMinimum p.minimum)),
      .definition (τ := .number .int32) (.number (.setMaximum p.maximum)), .setValue (τ := .number .int32) p.value]
  | .float, p => [.definition (τ := .number .float32) (.number (.setMinimum p.minimum)),
      .definition (τ := .number .float32) (.number (.setMaximum p.maximum)), .setValue (τ := .number .float32) p.value]
  | .double, p => [.definition (τ := .number .float64) (.number (.setMinimum p.minimum)),
      .definition (τ := .number .float64) (.number (.setMaximum p.maximum)), .setValue (τ := .number .float64) p.value]
  | .bool, p => [.setValue (τ := .boolean) p.value]
  | .string, p => [.setValue (τ := .string) p.value]
  | .color, p | .floatColor, p => [.setValue (τ := .rgba) p.value]

/-- What a group holds: values and groups at their addresses, and values of types that are not handled.  The value at an
address has one type. -/
inductive OfItem (type : Nat → OfType)
  | parameter (address : Nat) (p : OfParameter (type address))
  | unhandled
  | group (address : Nat) (name : Bytes) (items : List (OfItem type))

/-- What a parameter was created for. -/
inductive Origin
  | parameter (address : Nat)
  | group (address : Nat)
  deriving DecidableEq

/-- The server of the addon with its maps.  `origin` is not part of the code: it records the address that `expose` has
created a parameter for. -/
structure OfxServer (type : Nat → OfType) where
  server : Server
  paramIdMap : Std.ExtTreeMap Nat Int16 := ∅
  groupIdMap : Std.ExtTreeMap Nat Int16 := ∅
  origin : Ref → Option Origin := fun _ => none

/-- `dynamic_pointer_cast` of `getParameter` to a type of value parameters; `none` is the null pointer. -/
def Store.getValueParameter (id : Id) (τ : ValueType) (s : Store) : Option Ref :=
  match s.params[id]? with
  | some r =>
    match (s.heap r).kind with
    | .value σ _ _ => if σ = τ then some r else none
    | _ => none
  | none => none

/-- `dynamic_pointer_cast` of `getParameter` to `GroupParameter`. -/
def Store.getGroupParameter (id : Id) (s : Store) : Option Ref :=
  match s.params[id]? with
  | some r => if (s.heap r).isGroup then some r else none
  | none => none

/-- How `expose` ends: with a pointer, which may be null, or with the exception of `getNextId`. -/
inductive Exposed
  | pointer (p : Option Ref)
  | threw
  deriving DecidableEq

namespace OfxServer

variable {type : Nat → OfType}

abbrev store (s : OfxServer type) : Store := s.server.store

def findParam (paramAdr : Nat) (s : OfxServer type) : Id := (s.paramIdMap[paramAdr]?).getD 0

/-- A `create…Parameter` function, and what the parameter is for. -/
def create (mem : Memory) (f : CreateFunction) (label : Bytes) (group : Ref) (origin : Origin) (s : OfxServer type) :
    Option (Ref × OfxServer type) :=
  (s.store.create mem f label group).map fun p =>
    (p.1, { s with server := { s.server with store := p.2 },
                   origin := fun r => if r = p.1 then some origin else s.origin r })

/-- `expose` of a value. -/
def exposeParameter (mem : Memory) (address : Nat) (p : OfParameter (type address)) (group : Ref) (s : OfxServer type) :
    Exposed × OfxServer type :=
  match s.paramIdMap[address]? with
  | some id => (.pointer (s.store.getValueParameter id (type address).valueType), s)
  | none =>
    match s.create mem (type address).createFunction p.name group (.parameter address) with
    | none => (.threw, s)
    | some (r, s) =>
      let t := p.setters.foldl (fun t a => t.set r a) s.store
      (.pointer (some r), { s with server := { s.server with store := t },
                                   paramIdMap := s.paramIdMap.insert address (t.idOf r) })

mutual

/-- `expose` of what a group holds; `group` is the parent of the new parameters. -/
def expose (mem : Memory) (item : OfItem type) (group : Ref) (s : OfxServer type) : Exposed × OfxServer type :=
  match item with
  | .parameter address p => s.exposeParameter mem address p group
  | .unhandled => (.pointer none, s)
  | .group address name items =>
    match s.groupIdMap[address]? with
    | some id => (.pointer (s.store.getGroupParameter id), s)
    | none =>
      match s.create mem .createGroupParameter name group (.group address) with
      | none => (.threw, s)
      | some (gp, s) =>
        match exposeAll mem items gp s with
        | (true, s) =>
          (.pointer (some gp), { s with groupIdMap := s.groupIdMap.insert address (s.store.idOf gp) })
        | (false, s) => (.threw, s)

/-- The loop over a group; `false` if it is left by an exception. -/
def exposeAll (mem : Memory) (items : List (OfItem type)) (gp : Ref) (s : OfxServer type) : Bool × OfxServer type :=
  match items with
  | [] => (true, s)
  | item :: items =>
    match expose mem item gp s with
    | (.threw, s) => (false, s)
    | (.pointer _, s) => exposeAll mem items gp s

end

/-- `remove` of a value. -/
def removeParameter (address : Nat) (s : OfxServer type) : OfxServer type :=
  let id := s.findParam address
  if id = 0 then s
  else { s with server := s.server.mapStore (·.removeParameter id), paramIdMap := s.paramIdMap.erase address }

/-- `remove` of a group. -/
def removeGroup (address : Nat) (s : OfxServer type) : OfxServer type :=
  match s.groupIdMap[address]? with
  | some id =>
    { s with server := s.server.mapStore (·.removeParameter id), groupIdMap := s.groupIdMap.erase address }
  | none => s

/-- The `param…Changed` listeners. -/
def paramChanged (address : Nat) (value : (type address).valueType.Val) (s : OfxServer type) : OfxServer type :=
  let id := s.findParam address
  if id = 0 then s
  else
    match s.store.getValueParameter id (type address).valueType with
    | some r => { s with server := (s.server.mapStore (·.set r (.setValue value))).update.2 }
    | none => s

end OfxServer

/-- What an application does with the server. -/
inductive OfxOp (type : Nat → OfType)
  | expose (mem : Memory) (item : OfItem type) (group : Ref)
  | removeParameter (address : Nat)
  | removeGroup (address : Nat)
  | paramChanged (address : Nat) (value : (type address).valueType.Val)

def OfxServer.operate {type : Nat → OfType} (s : OfxServer type) : OfxOp type → OfxServer type
  | .expose mem item group => (s.expose mem item group).2
  | .removeParameter address => s.removeParameter address
  | .removeGroup address => s.removeGroup address
  | .paramChanged address value => s.paramChanged address value

end RabbitControl

import RabbitControl.TypeDefinition

/-!
# Parameters

The shared object behind a `Parameter` or `ValueParameter` handle (`parameter_intern.h`), its setters and its
writer.  Handles are references `Ref` into a heap of such objects: `newReference()` copies the reference.

The writer has two forms.  A value parameter of which only the value has changed is written short, with its id, its
mandatory type and its value, whatever it is asked for; every other parameter is written in full.
-/

namespace RabbitControl

open Lib

/-- A shared parameter object. -/
abbrev Ref := Nat

/-- What the instances of `Parameter` differ in: a type definition and a value, or the children of a group. -/
inductive Kind
  | value (τ : ValueType) (definition : TypeDefinition τ) (value : Slot τ.Val)
  | bang
  | group (children : Std.ExtTreeMap Int16 Ref)
  | invalid

structure Parameter where
  parameterId : Id
  kind : Kind
  label : Text := {}
  description : Text := {}
  tags : Slot Bytes := { content := [] }
  order : Slot (BitVec 32) := { content := 0 }
  parent : Option Ref := none
  parentChanged : Bool := false
  userdata : Block UInt8 := {}
  userid : Slot Bytes := { content := [] }
  readonly : Slot Bool
  managed : Bool := false

/-- The types that a parameter can be constructed at. -/
inductive ParameterType
  | value (τ : ValueType)
  | bang
  | group
  | invalid
  deriving DecidableEq

def Kind.make (mem : Memory) : ParameterType → Kind
  | .value τ => .value τ (.make mem τ) { content := τ.blank mem }
  | .bang => .bang
  | .group => .group ∅
  | .invalid => .invalid

/-- The constructor leaves `hasReadonly` and `readonlyChanged` unset. -/
def Parameter.create (mem : Memory) (id : Id) (type : ParameterType) : Parameter where
  parameterId := id
  kind := .make mem type
  readonly := ⟨mem.hasReadonly, false, mem.readonlyChanged⟩

def Kind.datatype : Kind → UInt8
  | value τ _ _ => τ.datatype
  | bang => datatypeBang
  | group _ => datatypeGroup
  | invalid => datatypeMax

namespace Parameter

def getDatatype (p : Parameter) : UInt8 := p.kind.datatype

/-- `ParameterManager::isValid`. -/
def isValid (p : Parameter) : Bool := p.getDatatype != datatypeMax && p.parameterId != 0

def isGroup (p : Parameter) : Bool :=
  match p.kind with
  | .group _ => true
  | _ => false

def children (p : Parameter) : Std.ExtTreeMap Int16 Ref :=
  match p.kind with
  | .group c => c
  | _ => ∅

/-- Change the children of a group. -/
def modifyChildren (f : Std.ExtTreeMap Int16 Ref → Std.ExtTreeMap Int16 Ref) (p : Parameter) : Parameter :=
  match p.kind with
  | .group c => { p with kind := .group (f c) }
  | _ => p

end Parameter

/-! ### Setters -/

/-- The setters and clear functions of a label or a description. -/
inductive TextSetter
  | set (s : Bytes)
  | clear
  | setLanguage (code s : Bytes)
  | removeLanguage (code : Bytes)
  | clearLanguages

def Text.apply (t : Text) : TextSetter → Text × Bool
  | .set s => t.set s
  | .clear => t.clear
  | .setLanguage code s => t.setLanguage code s
  | .removeLanguage code => t.removeLanguage code
  | .clearLanguages => t.clearLanguages

inductive Setter
  | label (s : TextSetter)
  | description (s : TextSetter)
  | setTags (s : Bytes) | clearTags
  | setOrder (v : BitVec 32) | clearOrder
  | setUserdata (d : Bytes) | clearUserdata
  | setUserid (s : Bytes) | clearUserid
  | setReadonly (b : Bool) | clearReadonly
  | setValue {τ : ValueType} (v : τ.Val) | clearValue
  | definition {τ : ValueType} (s : DefinitionSetter τ)
  | bang

/-- The setters of a value or of a type definition exist at the parameters of their type only; so does `bang()`. -/
def Kind.apply (k : Kind) : Setter → Kind × Bool
  | @Setter.setValue σ v =>
    match k with
    | .value τ d s => if h : σ = τ then onPart (Slot.set τ.eqv (h ▸ v)) (fun _ => s) (fun s _ => .value τ d s) k else (k, false)
    | _ => (k, false)
  | .clearValue =>
    match k with
    | .value τ d s => onPart Slot.clear (fun _ => s) (fun s _ => .value τ d s) k
    | _ => (k, false)
  | @Setter.definition σ a =>
    match k with
    | .value τ d s =>
      if h : σ = τ then onPart (TypeDefinition.apply · (h ▸ a)) (fun _ => d) (fun d _ => .value τ d s) k else (k, false)
    | _ => (k, false)
  | .bang =>
    match k with
    | .bang => (k, true)
    | _ => (k, false)
  | _ => (k, false)

/-- A setter, and whether it calls `setDirty()`. -/
def Parameter.apply (p : Parameter) : Setter → Parameter × Bool
  | .label s => onPart (Text.apply · s) label (fun t p => { p with label := t }) p
  | .description s => onPart (Text.apply · s) description (fun t p => { p with description := t }) p
  | .setTags s => onPart (Slot.set (· == ·) s) tags (fun t p => { p with tags := t }) p
  | .clearTags => onPart Slot.clear tags (fun t p => { p with tags := t }) p
  | .setOrder v => onPart (Slot.set (· == ·) v) order (fun t p => { p with order := t }) p
  | .clearOrder => onPart Slot.clear order (fun t p => { p with order := t }) p
  | .setUserdata d => onPart (Block.set d) userdata (fun t p => { p with userdata := t }) p
  | .clearUserdata => onPart Block.clear userdata (fun t p => { p with userdata := t }) p
  | .setUserid s => onPart (Slot.set (· == ·) s) userid (fun t p => { p with userid := t }) p
  | .clearUserid => onPart Slot.clear userid (fun t p => { p with userid := t }) p
  | .setReadonly b => onPart (Slot.set (· == ·) b) readonly (fun t p => { p with readonly := t }) p
  | .clearReadonly => onPart Slot.clear readonly (fun t p => { p with readonly := t }) p
  | s => onPart (Kind.apply · s) kind (fun k p => { p with kind := k }) p

/-! ### Change flags -/

def Kind.changed : Kind → OptionId → Bool
  | value _ _ s, .value => s.changed
  | value _ d _, o => d.changed o
  | _, _ => false

namespace Parameter

/-- The change flag of an option. -/
def changed (p : Parameter) : OptionId → Bool
  | .label => p.label.changed
  | .description => p.description.changed
  | .tags => p.tags.changed
  | .order => p.order.changed
  | .parentId => p.parentChanged
  | .userdata => p.userdata.changed
  | .userid => p.userid.changed
  | .readonly => p.readonly.changed
  | o => p.kind.changed o

def anyOptionChanged (p : Parameter) : Bool :=
  p.label.changed || p.description.changed || p.tags.changed || p.order.changed || p.parentChanged ||
    p.userdata.changed || p.userid.changed || p.readonly.changed

def onlyValueChanged (p : Parameter) : Bool :=
  match p.kind with
  | .value _ d s => !p.anyOptionChanged && !d.anyOptionChanged && s.changed
  | _ => false

end Parameter

/-! ### Writer -/

/-- What `write` emits for a parameter. -/
inductive Body
  | full (id : Id) (definition : DefinitionBody) (fields : List Field)
  | short (id : Id) (mandatory : Bytes) (value : Bytes)
  deriving DecidableEq

namespace Body

def id : Body → Id
  | full i _ _ => i
  | short i _ _ => i

def isFull : Body → Bool
  | full _ _ _ => true
  | short _ _ _ => false

def bytes : Body → Bytes
  | full i d fs => writeInt16 i ++ d.bytes ++ fieldBytes fs ++ [0]
  | short i m v => writeInt16 i ++ m ++ v

/-- The options that a body carries. -/
def options : Body → List OptionId
  | full _ d fs => d.options ++ fs.map Field.opt
  | short _ _ _ => [.value]

end Body

/-- The type definition and the value option. -/
def Kind.write (all : Bool) : Kind → (DefinitionBody × List Field) × Kind
  | value τ d s =>
    let w := d.write all
    let v := s.write .value (writeValue τ) (writeValue τ s.content) all
    ((w.1, v.1), .value τ w.2 v.2)
  | bang => ((⟨[datatypeBang], none, []⟩, []), .bang)
  | group c => ((⟨[datatypeGroup], none, []⟩, []), .group c)
  | invalid => ((⟨[datatypeMax], none, []⟩, []), .invalid)

namespace Parameter

/-- `Parameter::Value::write`.  The userdata are written without their length, whose upper half `write` cuts off. -/
def writeOptions (idOf : Ref → Id) (all : Bool) (p : Parameter) : List Field × Parameter :=
  let w1 := p.label.write .label writeTinyString all
  let w2 := p.description.write .description writeShortString all
  let w3 := p.tags.write .tags writeTinyString (writeTinyString []) all
  let w4 := p.order.write .order (fun v => encodeBE 4 v.toNat) (encodeBE 4 0) all
  let w5 := writeOption .parentId p.parent.isSome p.parentChanged all
    (writeInt16 ((p.parent.map idOf).getD 0)) (writeInt16 0)
  let w6 := p.userdata.write .userdata (fun d => d.take (d.length % 2 ^ 32)) (encodeBE 4 0) all
  let w7 := p.userid.write .userid writeTinyString (writeTinyString []) all
  let w8 := p.readonly.write .readonly writeBool (writeBool false) all
  (w1.1 ++ w2.1 ++ w3.1 ++ w4.1 ++ w5.1 ++ w6.1 ++ w7.1 ++ w8.1,
    { p with
      label := w1.2, description := w2.2, tags := w3.2, order := w4.2, parentChanged := w5.2
      userdata := w6.2, userid := w7.2, readonly := w8.2 })

def writeFull (idOf : Ref → Id) (all : Bool) (p : Parameter) : Body × Parameter :=
  let k := p.kind.write all
  let w := p.writeOptions idOf all
  (.full p.parameterId k.1.1 (k.1.2 ++ w.1), { w.2 with kind := k.2 })

/-- `write`: the body, and the parameter with the change flags that are left. -/
def write (idOf : Ref → Id) (all : Bool) (p : Parameter) : Body × Parameter :=
  match p.kind with
  | .value τ d s =>
    if p.onlyValueChanged then
      (.short p.parameterId τ.mandatory (writeValue τ s.content),
        { p with kind := .value τ d { s with changed := false } })
    else p.writeFull idOf all
  | _ => p.writeFull idOf all

end Parameter

/-! ### Observable state -/

/-- What an option that is present holds. -/
inductive Content
  | text (plain : Option Bytes) (languages : Std.ExtTreeMap Bytes Bytes)
  | string (s : Bytes)
  | strings (l : List Bytes)
  | order (v : BitVec 32)
  | parent (r : Ref)
  | flag (b : Bool)
  | scale (v : UInt8)
  | uuid (v : Vector UInt8 16)
  | value (τ : ValueType) (v : τ.Val)

def NumberDefinition.observe {t : NumberType} (d : NumberDefinition t) : NumberOption → Option Content
  | .default => d.defaultValue.get?.map (.value (.number t))
  | .minimum => d.minimum.get?.map (.value (.number t))
  | .maximum => d.maximum.get?.map (.value (.number t))
  | .multipleof => d.multipleof.get?.map (.value (.number t))
  | .scale => d.scale.get?.map .scale
  | .unit => d.unit.get?.map .string

/-- The observable state of an option of a type definition. -/
def TypeDefinition.observe : {τ : ValueType} → TypeDefinition τ → OptionId → Option Content
  | .number _, d, .number o => NumberDefinition.observe d o
  | .number _, _, _ => none
  | .range _, d, .number o => d.element.observe o
  | .string, d, .regex => d.regex.get?.map .string
  | .enum, d, .entries => d.options.get?.map .strings
  | .enum, d, .multiselect => d.multiselect.get?.map .flag
  | .uri, d, .filter => d.filter.get?.map .string
  | .uri, d, .schema => d.schemas.get?.map .strings
  | .custom _, d, .uuid => d.uuid.get?.map .uuid
  | .custom _, d, .config => d.config.get?.map .string
  | τ, d, .default => d.defaultValue.get?.map (.value τ)
  | _, _, _ => none

def Kind.observe : Kind → OptionId → Option Content
  | value τ _ s, .value => s.get?.map (.value τ)
  | value _ d _, o => d.observe o
  | _, _ => none

/-- The observable state of an option: nothing if it is absent, else its content. -/
def Parameter.observe (p : Parameter) : OptionId → Option Content
  | .label => p.label.get?.map fun c => .text c.1 c.2
  | .description => p.description.get?.map fun c => .text c.1 c.2
  | .tags => p.tags.get?.map .string
  | .order => p.order.get?.map .order
  | .parentId => p.parent.map .parent
  | .userdata => p.userdata.get?.map .string
  | .userid => p.userid.get?.map .string
  | .readonly => p.readonly.get?.map .flag
  | o => p.kind.observe o

end RabbitControl

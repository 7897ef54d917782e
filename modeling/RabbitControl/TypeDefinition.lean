import RabbitControl.Options

/-!
# Type definitions

The states of the type definitions with their setters, writers and readers: numbers (`type_number.h`), the types
that have a default value only (`type_default.h`), strings, enums, URIs, ranges and custom types.
`TypeDefinition τ` is the definition that goes with the value type `τ`.
-/

namespace RabbitControl

open Lib

/-! ### States -/

structure NumberDefinition (t : NumberType) where
  defaultValue : Slot t.Val := { content := 0 }
  minimum : Slot t.Val := { content := t.minimum }
  maximum : Slot t.Val := { content := t.maximum }
  multipleof : Slot t.Val := { content := 0 }
  scale : Slot UInt8 := { content := 0 }
  unit : Slot Bytes := { content := [] }

/-- `blank` is what `T v{}` yields, which the writer sends for a cleared default. -/
structure DefaultDefinition (α : Type) where
  defaultValue : Slot α
  blank : α

structure StringDefinition where
  defaultValue : Slot Bytes := { content := [] }
  regex : Slot Bytes := { content := [] }

structure EnumDefinition where
  defaultValue : Slot Bytes := { content := [] }
  options : Block Bytes := {}
  multiselect : Slot Bool := { content := false }

structure UriDefinition where
  defaultValue : Slot Bytes := { content := [] }
  filter : Slot Bytes := { content := [] }
  schemas : Block Bytes := {}

structure RangeDefinition (t : NumberType) where
  element : NumberDefinition t := {}
  defaultValue : Slot (t.Val × t.Val) := { content := (0, 0) }

structure CustomDefinition (n : Nat) where
  defaultValue : Slot (Vector UInt8 n) := { content := Vector.replicate n 0 }
  uuid : Slot (Vector UInt8 16) := { content := Vector.replicate 16 0 }
  config : Block UInt8 := {}

/-- The type definition of a value type. -/
@[reducible] def TypeDefinition : ValueType → Type
  | .boolean => DefaultDefinition Bool
  | .number t => NumberDefinition t
  | .string => StringDefinition
  | .enum => EnumDefinition
  | .rgb | .rgba | .ipv4 => DefaultDefinition (BitVec 32)
  | .ipv6 => DefaultDefinition IPv6
  | .uri => UriDefinition
  | .range t => RangeDefinition t
  | .custom n => CustomDefinition n

def DefaultDefinition.make {α : Type} (v : α) : DefaultDefinition α := ⟨{ content := v }, v⟩

def TypeDefinition.make (mem : Memory) : (τ : ValueType) → TypeDefinition τ
  | .boolean => DefaultDefinition.make false
  | .number _ => {}
  | .string => {}
  | .enum => {}
  | .rgb | .rgba => DefaultDefinition.make (0 : BitVec 32)
  | .ipv4 => DefaultDefinition.make mem.ipv4
  | .ipv6 => DefaultDefinition.make mem.ipv6
  | .uri => {}
  | .range _ => {}
  | .custom _ => {}

/-! ### Setters -/

inductive NumberSetter (t : NumberType)
  | setDefault (v : t.Val) | clearDefault
  | setMinimum (v : t.Val) | clearMinimum
  | setMaximum (v : t.Val) | clearMaximum
  | setMultipleof (v : t.Val) | clearMultipleof
  | setScale (v : UInt8) | clearScale
  | setUnit (v : Bytes) | clearUnit

/-- Run a setter on one member. -/
def onPart {σ α : Type} (f : α → α × Bool) (get : σ → α) (put : α → σ → σ) (s : σ) : σ × Bool :=
  let r := f (get s)
  (put r.1 s, r.2)

def NumberDefinition.apply {t : NumberType} (d : NumberDefinition t) :
    NumberSetter t → NumberDefinition t × Bool
  | .setDefault v => onPart (Slot.set t.eqv v) defaultValue (fun s d => { d with defaultValue := s }) d
  | .clearDefault => onPart Slot.clear defaultValue (fun s d => { d with defaultValue := s }) d
  | .setMinimum v => onPart (Slot.set t.eqv v) minimum (fun s d => { d with minimum := s }) d
  | .clearMinimum => onPart Slot.clear minimum (fun s d => { d with minimum := s }) d
  | .setMaximum v => onPart (Slot.set t.eqv v) maximum (fun s d => { d with maximum := s }) d
  | .clearMaximum => onPart Slot.clear maximum (fun s d => { d with maximum := s }) d
  | .setMultipleof v => onPart (Slot.set t.eqv v) multipleof (fun s d => { d with multipleof := s }) d
  | .clearMultipleof => onPart Slot.clear multipleof (fun s d => { d with multipleof := s }) d
  | .setScale v => onPart (Slot.set (· == ·) v) scale (fun s d => { d with scale := s }) d
  | .clearScale => onPart Slot.clear scale (fun s d => { d with scale := s }) d
  | .setUnit v => onPart (Slot.set (· == ·) v) unit (fun s d => { d with unit := s }) d
  | .clearUnit => onPart Slot.clear unit (fun s d => { d with unit := s }) d

/-- The setters of the type definition of `τ`; `element` reaches the element definition of a range. -/
inductive DefinitionSetter : ValueType → Type
  | number {t : NumberType} (s : NumberSetter t) : DefinitionSetter (.number t)
  | element {t : NumberType} (s : NumberSetter t) : DefinitionSetter (.range t)
  | setDefault {τ : ValueType} (v : τ.Val) : DefinitionSetter τ
  | clearDefault {τ : ValueType} : DefinitionSetter τ
  | setRegex (v : Bytes) : DefinitionSetter .string
  | clearRegex : DefinitionSetter .string
  | addOption (v : Bytes) : DefinitionSetter .enum
  | setOptions (v : List Bytes) : DefinitionSetter .enum
  | clearOptions : DefinitionSetter .enum
  | setMultiselect (v : Bool) : DefinitionSetter .enum
  | clearMultiselect : DefinitionSetter .enum
  | setFilter (v : Bytes) : DefinitionSetter .uri
  | clearFilter : DefinitionSetter .uri
  | addSchema (v : Bytes) : DefinitionSetter .uri
  | setSchemas (v : List Bytes) : DefinitionSetter .uri
  | clearSchemas : DefinitionSetter .uri
  | setUuid {n : Nat} (v : Bytes) : DefinitionSetter (.custom n)
  | clearUuid {n : Nat} : DefinitionSetter (.custom n)
  | setConfig {n : Nat} (v : Bytes) : DefinitionSetter (.custom n)
  | clearConfig {n : Nat} : DefinitionSetter (.custom n)

/-- The default value of a definition. -/
def TypeDefinition.defaultValue : {τ : ValueType} → TypeDefinition τ → Slot τ.Val
  | .boolean, d => DefaultDefinition.defaultValue d
  | .number _, d => NumberDefinition.defaultValue d
  | .string, d => StringDefinition.defaultValue d
  | .enum, d => EnumDefinition.defaultValue d
  | .rgb, d | .rgba, d | .ipv4, d => DefaultDefinition.defaultValue d
  | .ipv6, d => DefaultDefinition.defaultValue d
  | .uri, d => UriDefinition.defaultValue d
  | .range _, d => RangeDefinition.defaultValue d
  | .custom _, d => CustomDefinition.defaultValue d

def TypeDefinition.withDefault : {τ : ValueType} → Slot τ.Val → TypeDefinition τ → TypeDefinition τ
  | .boolean, s, d => { d with defaultValue := s }
  | .number _, s, d => { d with defaultValue := s }
  | .string, s, d => { d with defaultValue := s }
  | .enum, s, d => { d with defaultValue := s }
  | .rgb, s, d | .rgba, s, d | .ipv4, s, d => { d with defaultValue := s }
  | .ipv6, s, d => { d with defaultValue := s }
  | .uri, s, d => { d with defaultValue := s }
  | .range _, s, d => { d with defaultValue := s }
  | .custom _, s, d => { d with defaultValue := s }

/-- `setDefault`.  The definition of URIs does not call `setDirty()`. -/
def TypeDefinition.setDefault {τ : ValueType} (v : τ.Val) (d : TypeDefinition τ) : TypeDefinition τ × Bool :=
  let r := onPart (Slot.set τ.eqv v) defaultValue withDefault d
  (r.1, r.2 && τ != .uri)

/-- `clearDefault`.  The definition of URIs sets no change flag and does not call `setDirty()`. -/
def TypeDefinition.clearDefault {τ : ValueType} (d : TypeDefinition τ) : TypeDefinition τ × Bool :=
  if τ = .uri then (d.withDefault { d.defaultValue with has := false }, false)
  else onPart Slot.clear defaultValue withDefault d

theorem CustomDefinition.size_uuid {v : Bytes} (h : v.length = 16) : v.toArray.size = 16 := by
  simpa using h

/-- `setUuid(uuid, length)` ignores anything but sixteen bytes. -/
def CustomDefinition.setUuid {n : Nat} (v : Bytes) (d : CustomDefinition n) : CustomDefinition n × Bool :=
  if h : v.length = 16 then
    onPart (Slot.set (· == ·) ⟨v.toArray, size_uuid h⟩) uuid (fun s d => { d with uuid := s }) d
  else (d, false)

/-- `clearUuid` also zeroes the bytes. -/
def CustomDefinition.clearUuid {n : Nat} (d : CustomDefinition n) : CustomDefinition n × Bool :=
  ({ d with uuid := ⟨false, Vector.replicate 16 0, true⟩ }, true)

def TypeDefinition.apply : {τ : ValueType} → TypeDefinition τ → DefinitionSetter τ → TypeDefinition τ × Bool
  | _, d, .number s => NumberDefinition.apply d s
  | _, d, .element s => onPart (NumberDefinition.apply · s) (·.element) (fun e d => { d with element := e }) d
  | _, d, .setDefault v => setDefault v d
  | _, d, .clearDefault => clearDefault d
  | _, d, .setRegex v => onPart (Slot.set (· == ·) v) (·.regex) (fun s d => { d with regex := s }) d
  | _, d, .clearRegex => onPart Slot.clear (·.regex) (fun s d => { d with regex := s }) d
  | _, d, .addOption v => onPart (Block.push v) (·.options) (fun s d => { d with options := s }) d
  | _, d, .setOptions v => onPart (Block.set v) (·.options) (fun s d => { d with options := s }) d
  | _, d, .clearOptions => onPart Block.clear (·.options) (fun s d => { d with options := s }) d
  | _, d, .setMultiselect v => onPart (Slot.set (· == ·) v) (·.multiselect) (fun s d => { d with multiselect := s }) d
  | _, d, .clearMultiselect => onPart Slot.clear (·.multiselect) (fun s d => { d with multiselect := s }) d
  | _, d, .setFilter v => onPart (Slot.set (· == ·) v) (·.filter) (fun s d => { d with filter := s }) d
  | _, d, .clearFilter => onPart Slot.clear (·.filter) (fun s d => { d with filter := s }) d
  | _, d, .addSchema v => onPart (Block.push v) (·.schemas) (fun s d => { d with schemas := s }) d
  | _, d, .setSchemas v => onPart (Block.set v) (·.schemas) (fun s d => { d with schemas := s }) d
  | _, d, .clearSchemas => onPart Block.clear (·.schemas) (fun s d => { d with schemas := s }) d
  | _, d, .setUuid v => d.setUuid v
  | _, d, .clearUuid => d.clearUuid
  | _, d, .setConfig v => onPart (Block.set v) (·.config) (fun s d => { d with config := s }) d
  | _, d, .clearConfig => onPart Block.clear (·.config) (fun s d => { d with config := s }) d

/-! ### Change flags -/

def NumberDefinition.changed {t : NumberType} (d : NumberDefinition t) : NumberOption → Bool
  | .default => d.defaultValue.changed
  | .minimum => d.minimum.changed
  | .maximum => d.maximum.changed
  | .multipleof => d.multipleof.changed
  | .scale => d.scale.changed
  | .unit => d.unit.changed

def NumberDefinition.anyOptionChanged {t : NumberType} (d : NumberDefinition t) : Bool :=
  d.defaultValue.changed || d.minimum.changed || d.maximum.changed || d.multipleof.changed || d.scale.changed ||
    d.unit.changed

/-- The change flag of an option; `false` for an option that the definition does not have. -/
def TypeDefinition.changed : {τ : ValueType} → TypeDefinition τ → OptionId → Bool
  | .number _, d, .number o => NumberDefinition.changed d o
  | .number _, _, _ => false
  | .range _, d, .number o => d.element.changed o
  | .string, d, .regex => d.regex.changed
  | .enum, d, .entries => d.options.changed
  | .enum, d, .multiselect => d.multiselect.changed
  | .uri, d, .filter => d.filter.changed
  | .uri, d, .schema => d.schemas.changed
  | .custom _, d, .uuid => d.uuid.changed
  | .custom _, d, .config => d.config.changed
  | _, d, .default => d.defaultValue.changed
  | _, _, _ => false

def TypeDefinition.anyOptionChanged : {τ : ValueType} → TypeDefinition τ → Bool
  | .boolean, d => d.defaultValue.changed
  | .number _, d => NumberDefinition.anyOptionChanged d
  | .string, d => d.defaultValue.changed || d.regex.changed
  | .enum, d => d.defaultValue.changed || d.options.changed || d.multiselect.changed
  | .rgb, d | .rgba, d | .ipv4, d => d.defaultValue.changed
  | .ipv6, d => d.defaultValue.changed
  | .uri, d => d.defaultValue.changed || d.filter.changed || d.schemas.changed
  | .range _, d => d.element.anyOptionChanged || d.defaultValue.changed
  | .custom _, d => d.defaultValue.changed || d.uuid.changed || d.config.changed

/-! ### Writers -/

/-- A type definition as written: the mandatory part, for a range the element definition (its mandatory part and its
options), and the options.  Each option list ends with a terminator. -/
structure DefinitionBody where
  mandatory : Bytes
  element : Option (Bytes × List Field) := none
  fields : List Field
  deriving DecidableEq

def DefinitionBody.bytes (b : DefinitionBody) : Bytes :=
  b.mandatory ++ (match b.element with
    | none => []
    | some e => e.1 ++ fieldBytes e.2 ++ [0]) ++ fieldBytes b.fields ++ [0]

/-- The options that a written definition carries. -/
def DefinitionBody.options (b : DefinitionBody) : List OptionId :=
  ((b.element.map Prod.snd).getD []).map Field.opt ++ b.fields.map Field.opt

def NumberDefinition.write {t : NumberType} (all : Bool) (d : NumberDefinition t) :
    List Field × NumberDefinition t :=
  let num := fun v : t.Val => encodeBE t.size v.toNat
  let w1 := d.defaultValue.write (.number .default) num (num 0) all
  let w2 := d.minimum.write (.number .minimum) num (num t.minimum) all
  let w3 := d.maximum.write (.number .maximum) num (num t.maximum) all
  let w4 := d.multipleof.write (.number .multipleof) num (num 0) all
  let w5 := d.scale.write (.number .scale) (fun v => [v]) [0] all
  let w6 := d.unit.write (.number .unit) writeTinyString (writeTinyString []) all
  (w1.1 ++ w2.1 ++ w3.1 ++ w4.1 ++ w5.1 ++ w6.1, ⟨w1.2, w2.2, w3.2, w4.2, w5.2, w6.2⟩)

def DefaultDefinition.write {α : Type} (enc : α → Bytes) (all : Bool) (d : DefaultDefinition α) :
    List Field × DefaultDefinition α :=
  let w := d.defaultValue.write .default enc (enc d.blank) all
  (w.1, { d with defaultValue := w.2 })

def StringDefinition.write (all : Bool) (d : StringDefinition) : List Field × StringDefinition :=
  let w1 := d.defaultValue.write .default writeString (writeString []) all
  let w2 := d.regex.write .regex writeString (writeString []) all
  (w1.1 ++ w2.1, ⟨w1.2, w2.2⟩)

/-- The entries of an enum: their number in two bytes, then the entries. -/
def writeEntries (l : List Bytes) : Bytes := encodeBE 2 l.length ++ l.flatMap writeTinyString

def EnumDefinition.write (all : Bool) (d : EnumDefinition) : List Field × EnumDefinition :=
  let w1 := d.defaultValue.write .default writeTinyString (writeTinyString []) all
  let w2 := d.options.write .entries writeEntries (encodeBE 2 0) all
  let w3 := d.multiselect.write .multiselect writeBool (writeBool false) all
  (w1.1 ++ w2.1 ++ w3.1, ⟨w1.2, w2.2, w3.2⟩)

/-- The schemas of an URI, separated by blanks. -/
def writeSchemas (l : List Bytes) : Bytes := writeTinyString (List.intercalate [32] l)

def UriDefinition.write (all : Bool) (d : UriDefinition) : List Field × UriDefinition :=
  let w1 := d.defaultValue.write .default writeString (writeString []) all
  let w2 := d.filter.write .filter writeTinyString (writeTinyString []) all
  let w3 := d.schemas.write .schema writeSchemas (writeTinyString []) all
  (w1.1 ++ w2.1 ++ w3.1, ⟨w1.2, w2.2, w3.2⟩)

/-- A cleared default of a range is written as twice the default of its element, or zero. -/
def RangeDefinition.write {t : NumberType} (all : Bool) (d : RangeDefinition t) :
    (List Field × List Field) × RangeDefinition t :=
  let e := d.element.write all
  let num := fun v : t.Val => encodeBE t.size v.toNat
  let v := (e.2.defaultValue.get?).getD 0
  let w := d.defaultValue.write .default (fun r => num r.1 ++ num r.2) (num v ++ num v) all
  ((e.1, w.1), ⟨e.2, w.2⟩)

def CustomDefinition.write {n : Nat} (all : Bool) (d : CustomDefinition n) : List Field × CustomDefinition n :=
  let w1 := d.defaultValue.write .default Vector.toList (List.replicate n 0) all
  let w2 := d.uuid.write .uuid Vector.toList d.uuid.content.toList all
  let w3 := d.config.write .config (fun c => encodeBE 4 c.length ++ c) (encodeBE 4 0) all
  (w1.1 ++ w2.1 ++ w3.1, ⟨w1.2, w2.2, w3.2⟩)

/-- `writeMandatory`. -/
def ValueType.mandatory : ValueType → Bytes
  | .range t => [45, t.datatype]
  | .custom n => 1 :: encodeBE 4 n
  | τ => [τ.datatype]

def TypeDefinition.write (all : Bool) : {τ : ValueType} → TypeDefinition τ → DefinitionBody × TypeDefinition τ
  | .boolean, d => let w := DefaultDefinition.write writeBool all d; (⟨[16], none, w.1⟩, w.2)
  | .number t, d => let w := NumberDefinition.write all d; (⟨[t.datatype], none, w.1⟩, w.2)
  | .string, d => let w := StringDefinition.write all d; (⟨[33], none, w.1⟩, w.2)
  | .enum, d => let w := EnumDefinition.write all d; (⟨[36], none, w.1⟩, w.2)
  | .rgb, d => let w := DefaultDefinition.write (fun v => encodeBE 4 v.toNat) all d; (⟨[34], none, w.1⟩, w.2)
  | .rgba, d => let w := DefaultDefinition.write (fun v => encodeBE 4 v.toNat) all d; (⟨[35], none, w.1⟩, w.2)
  | .ipv4, d => let w := DefaultDefinition.write (fun v => encodeBE 4 v.toNat) all d; (⟨[43], none, w.1⟩, w.2)
  | .ipv6, d => let w := DefaultDefinition.write writeIPv6 all d; (⟨[44], none, w.1⟩, w.2)
  | .uri, d => let w := UriDefinition.write all d; (⟨[42], none, w.1⟩, w.2)
  | .range t, d => let w := RangeDefinition.write all d; (⟨[45], some ([t.datatype], w.1.1), w.1.2⟩, w.2)
  | .custom n, d => let w := CustomDefinition.write all d; (⟨1 :: encodeBE 4 n, none, w.1⟩, w.2)

end RabbitControl

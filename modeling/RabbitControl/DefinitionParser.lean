import RabbitControl.TypeDefinition

/-!
# Parsing type definitions

`parseOptions` of the type definitions.  Each is an option loop whose turn handles one prefix byte; a prefix that the
definition does not know is skipped alone.  The parser sets contents and presence flags and leaves every change flag
as it is.
-/

namespace RabbitControl

open Lib

/-- A single character, as `static_cast<…>(is.get())` takes it. -/
def readGet : Reader UInt8 := fun is =>
  let r := is.get
  .ok (r.1.getD 0, r.2)

def NumberDefinition.parseOption {t : NumberType} (d : NumberDefinition t) (opt : Option UInt8) (is : IStream) :
    Turn (NumberDefinition t) :=
  match opt with
  | some 48 => readOption (readBits t.size) (fun v d => { d with defaultValue := d.defaultValue.fill v }) d is
  | some 49 => readOption (readBits t.size) (fun v d => { d with minimum := d.minimum.fill v }) d is
  | some 50 => readOption (readBits t.size) (fun v d => { d with maximum := d.maximum.fill v }) d is
  | some 51 => readOption (readBits t.size) (fun v d => { d with multipleof := d.multipleof.fill v }) d is
  | some 52 => readOption readGet (fun v d => { d with scale := d.scale.fill v }) d is
  | some 53 => readOption readTinyString (fun v d => { d with unit := d.unit.fill v }) d is
  | _ => .next d is

def DefaultDefinition.parseOption {α : Type} (read : Reader α) (d : DefaultDefinition α) (opt : Option UInt8)
    (is : IStream) : Turn (DefaultDefinition α) :=
  match opt with
  | some 48 => readOption read (fun v d => { d with defaultValue := d.defaultValue.fill v }) d is
  | _ => .next d is

def StringDefinition.parseOption (d : StringDefinition) (opt : Option UInt8) (is : IStream) :
    Turn StringDefinition :=
  match opt with
  | some 48 => readOption readLongString (fun v d => { d with defaultValue := d.defaultValue.fill v }) d is
  | some 49 => readOption readLongString (fun v d => { d with regex := d.regex.fill v }) d is
  | _ => .next d is

/-- `while (option != "")`: entries are read up to an empty one. -/
def EnumDefinition.parseEntries : Nat → Bytes → EnumDefinition → IStream → Turn EnumDefinition
  | 0, _, d, _ => .throw .hang d
  | n + 1, option, d, is =>
    if option = [] then .next d is
    else
      let d := { d with options := d.options.fill (d.options.content ++ [option]) }
      match readTinyString is with
      | .error e => .throw e d
      | .ok (option, is) => if is.eof then .next d is else parseEntries n option d is

def EnumDefinition.parseOption (d : EnumDefinition) (opt : Option UInt8) (is : IStream) : Turn EnumDefinition :=
  match opt with
  | some 48 => readOption readTinyString (fun v d => { d with defaultValue := d.defaultValue.fill v }) d is
  | some 49 =>
    let d := { d with options := d.options.fill [] }
    match readTinyString is with
    | .error e => .throw e d
    | .ok (option, is) => if is.eof then .next d is else parseEntries (is.rest.length + 1) option d is
  | some 50 => readOption readBool (fun v d => { d with multiselect := d.multiselect.fill v }) d is
  | _ => .next d is

/-- `std::isspace` in the C locale. -/
def isSpace (c : UInt8) : Bool := c == 32 || (9 ≤ c && c ≤ 13)

/-- The words an `std::istream_iterator<std::string>` runs over. -/
def splitWords (s : Bytes) : List Bytes := (s.splitOnP isSpace).filter (· ≠ [])

def UriDefinition.parseOption (d : UriDefinition) (opt : Option UInt8) (is : IStream) : Turn UriDefinition :=
  match opt with
  | some 48 => readOption readLongString (fun v d => { d with defaultValue := d.defaultValue.fill v }) d is
  | some 49 => readOption readTinyString (fun v d => { d with filter := d.filter.fill v }) d is
  | some 50 => readOption readTinyString (fun v d => { d with schemas := d.schemas.fill (splitWords v) }) d is
  | _ => .next d is

def RangeDefinition.parseOption {t : NumberType} (d : RangeDefinition t) (opt : Option UInt8) (is : IStream) :
    Turn (RangeDefinition t) :=
  match opt with
  | some 48 =>
    let r1 := is.readBE t.size
    if r1.2.eof then .next d r1.2
    else
      let r2 := r1.2.readBE t.size
      if r2.2.eof then .next d r2.2
      else .next { d with defaultValue := d.defaultValue.fill (BitVec.ofNat _ r1.1, BitVec.ofNat _ r2.1) } r2.2
  | _ => .next d is

/-- The sixteen bytes of an uuid: fifteen characters at most, a zero, and what the buffer held. -/
def readUuid : Reader (Vector UInt8 16) := fun is =>
  let r := is.getLine 16
  .ok (Vector.ofFn fun i => r.1.getD i 0, r.2)

def CustomDefinition.parseOption {n : Nat} (d : CustomDefinition n) (opt : Option UInt8) (is : IStream) :
    Turn (CustomDefinition n) :=
  match opt with
  | some 48 => readOption (readVector n) (fun v d => { d with defaultValue := d.defaultValue.fill v }) d is
  | some 49 => readOption readUuid (fun v d => { d with uuid := d.uuid.fill v }) d is
  | some 50 =>
    let r := is.readBE 4
    if r.2.eof then .next d r.2
    else
      let c := r.2.getLine r.1
      if c.2.eof then .next d c.2 else .next { d with config := d.config.fill c.1 } c.2
  | _ => .next d is

def NumberDefinition.parseOptions {t : NumberType} (d : NumberDefinition t) (is : IStream) :
    Outcome (NumberDefinition t) :=
  optionList parseOption d is

/-- The definition of a range starts with that of its element. -/
def RangeDefinition.parseOptions {t : NumberType} (d : RangeDefinition t) (is : IStream) :
    Outcome (RangeDefinition t) :=
  match d.element.parseOptions is with
  | .throw e el => .throw e { d with element := el }
  | .done el is => optionList parseOption { d with element := el } is

def TypeDefinition.parseOptions : {τ : ValueType} → TypeDefinition τ → IStream → Outcome (TypeDefinition τ)
  | .boolean, d, is => optionList (DefaultDefinition.parseOption readBool) d is
  | .number _, d, is => NumberDefinition.parseOptions d is
  | .string, d, is => optionList StringDefinition.parseOption d is
  | .enum, d, is => optionList EnumDefinition.parseOption d is
  | .rgb, d, is | .rgba, d, is | .ipv4, d, is => optionList (DefaultDefinition.parseOption (readBits 4)) d is
  | .ipv6, d, is => optionList (DefaultDefinition.parseOption readIPv6) d is
  | .uri, d, is => optionList UriDefinition.parseOption d is
  | .range _, d, is => RangeDefinition.parseOptions d is
  | .custom _, d, is => optionList CustomDefinition.parseOption d is

end RabbitControl

import RabbitControl.Wire

/-!
# Options

Every option of a parameter or of a type definition is kept as a presence flag, a content and a change flag, which
setters, clear functions and writers maintain by hand.  The three shapes that occur in the source are `Slot` (a
guarded content), `Text` (a label or a description with its language table) and `Block` (a container that is
present when it is not empty).  All of them are written by one function, `writeOption`.

A setter also says whether it calls `setDirty()`.
-/

namespace RabbitControl

open Lib

/-- The options of a number definition. -/
inductive NumberOption
  | default | minimum | maximum | multipleof | scale | unit
  deriving DecidableEq, Repr

/-- The options of parameters and type definitions.  `number` are those of a number definition, which is also the
element definition of a range; `default` is the default value of every other definition. -/
inductive OptionId
  | value | label | description | tags | order | parentId | userdata | userid | readonly
  | number (o : NumberOption)
  | default | regex | entries | multiselect | filter | schema | uuid | config
  deriving DecidableEq, Repr

/-- The byte an option starts with. -/
def OptionId.code : OptionId → UInt8
  | value => 32
  | label => 33
  | description => 34
  | tags => 35
  | order => 36
  | parentId => 37
  | userdata => 39
  | userid => 40
  | readonly => 41
  | number .default | default => 48
  | number .minimum | regex | entries | filter | uuid => 49
  | number .maximum | multiselect | schema | config => 50
  | number .multipleof => 51
  | number .scale => 52
  | number .unit => 53

/-- An option as written: its prefix byte and what follows. -/
structure Field where
  opt : OptionId
  payload : Bytes
  deriving DecidableEq, Repr

def Field.bytes (f : Field) : Bytes := f.opt.code :: f.payload

/-- The bytes of a list of options. -/
def fieldBytes (fs : List Field) : Bytes := fs.flatMap Field.bytes

/-- Write one option: `payload` if it is present and either everything is asked for or it has changed, `cleared` if
it is absent and has changed.  The second component is the change flag afterwards. -/
def writeOption (opt : OptionId) (present changed all : Bool) (payload cleared : Bytes) : List Field × Bool :=
  if present then
    if all || changed then ([⟨opt, payload⟩], changed && all) else ([], changed)
  else if changed then ([⟨opt, cleared⟩], false)
  else ([], changed)

/-- A change flag survives a full write unless the option is absent. -/
theorem writeOption_full_changed (opt : OptionId) (present changed : Bool) (payload cleared : Bytes) :
    (writeOption opt present changed true payload cleared).2 = (changed && present) := by
  cases present <;> cases changed <;> rfl

/-- An update write takes every change flag down. -/
@[simp] theorem writeOption_changed (opt : OptionId) (present changed : Bool) (payload cleared : Bytes) :
    (writeOption opt present changed false payload cleared).2 = false := by
  cases present <;> cases changed <;> rfl

/-- An update write carries every changed option. -/
theorem writeOption_mem {opt : OptionId} {present : Bool} {payload cleared : Bytes} :
    opt ∈ (writeOption opt present true false payload cleared).1.map Field.opt := by
  cases present <;> simp [writeOption]

/-! ### Guarded contents -/

structure Slot (α : Type) where
  has : Bool := false
  content : α
  changed : Bool := false

namespace Slot

variable {α : Type}

/-- A setter: an equal content that was kept is not a change, even if the option was absent. -/
def set (eqv : α → α → Bool) (v : α) (s : Slot α) : Slot α × Bool :=
  if eqv s.content v then ({ s with has := true }, false)
  else (⟨true, v, true⟩, true)

def clear (s : Slot α) : Slot α × Bool := ({ s with has := false, changed := true }, true)

/-- What the parser does: the option is present, its change flag is not touched. -/
def fill (v : α) (s : Slot α) : Slot α := { s with has := true, content := v }

/-- The observable state: the content if there is one. -/
def get? (s : Slot α) : Option α := if s.has then some s.content else none

@[simp] theorem isSome_get? (s : Slot α) : s.get?.isSome = s.has := by
  cases hs : s.has <;> simp [get?, hs]

def write (opt : OptionId) (enc : α → Bytes) (cleared : Bytes) (all : Bool) (s : Slot α) :
    List Field × Slot α :=
  let w := writeOption opt s.has s.changed all (enc s.content) cleared
  (w.1, { s with changed := w.2 })

end Slot

/-! ### Containers -/

structure Block (α : Type) where
  content : List α := []
  changed : Bool := false

namespace Block

variable {α : Type}

def set (v : List α) (_ : Block α) : Block α × Bool := (⟨v, true⟩, true)

def clear (_ : Block α) : Block α × Bool := (⟨[], true⟩, true)

def push (a : α) (b : Block α) : Block α × Bool := (⟨b.content ++ [a], true⟩, true)

def fill (v : List α) (b : Block α) : Block α := { b with content := v }

def has (b : Block α) : Bool := !b.content.isEmpty

def get? (b : Block α) : Option (List α) := if b.has then some b.content else none

@[simp] theorem isSome_get? (b : Block α) : b.get?.isSome = b.has := by
  cases hb : b.has <;> simp [get?, hb]

def write (opt : OptionId) (enc : List α → Bytes) (cleared : Bytes) (all : Bool) (b : Block α) :
    List Field × Block α :=
  let w := writeOption opt b.has b.changed all (enc b.content) cleared
  (w.1, { b with changed := w.2 })

end Block

/-! ### Texts -/

/-- A label or a description: one text for any language and a table of texts by language code. -/
structure Text where
  has : Bool := false
  content : Bytes := []
  languages : Std.ExtTreeMap Bytes Bytes := ∅
  changed : Bool := false

namespace Text

def set (s : Bytes) (t : Text) : Text × Bool :=
  if t.content = s then ({ t with has := true }, false)
  else ({ t with has := true, content := s, changed := true }, true)

/-- The clear function leaves the change flag as it is. -/
def clear (t : Text) : Text × Bool := ({ t with has := false }, true)

def setLanguage (code s : Bytes) (t : Text) : Text × Bool :=
  ({ t with languages := t.languages.insert code s, changed := true }, true)

def removeLanguage (code : Bytes) (t : Text) : Text × Bool :=
  if code ∈ t.languages then ({ t with languages := t.languages.erase code, changed := true }, true)
  else (t, false)

def clearLanguages (t : Text) : Text × Bool := ({ t with languages := ∅, changed := true }, true)

/-- What the parser does with one entry of the language table; the code `any` stands for the plain text. -/
def fill (code s : Bytes) (t : Text) : Text :=
  if code = [97, 110, 121] then { t with has := true, content := s }
  else { t with languages := t.languages.insert code s }

def present (t : Text) : Bool := t.has || !t.languages.isEmpty

/-- The observable state: the plain text, if there is one, and the language table. -/
def get? (t : Text) : Option (Option Bytes × Std.ExtTreeMap Bytes Bytes) :=
  if t.present then some (if t.has then some t.content else none, t.languages) else none

/-- `writeLabel` and `writeDescription`; codes of fewer than three bytes are left out. -/
def payload (writeStr : Bytes → Bytes) (t : Text) : Bytes :=
  (if t.has then [97, 110, 121] ++ writeStr t.content else []) ++
    t.languages.toList.flatMap (fun l => if l.1.length < 3 then [] else l.1.take 3 ++ writeStr l.2) ++ [0]

def write (opt : OptionId) (writeStr : Bytes → Bytes) (all : Bool) (t : Text) : List Field × Text :=
  let w := writeOption opt t.present t.changed all (t.payload writeStr) [0]
  (w.1, { t with changed := w.2 })

end Text

end RabbitControl

import RabbitControl.Store
import RabbitControl.DefinitionParser

/-!
# Parsing parameters

`ParameterParser` and `Parameter::parseOptions`.  A parsed parameter is a proxy: it is not in the store, but its
`PARENTID` option looks up a group of the store, and a second `PARENTID` option calls `removeChild` on the group
that the first one named.

The parser is written over an environment that answers these two calls.  `storeEnv` answers them from a store, with
the proxy at the next free reference.  `dryEnv` answers lookups from a store that it never changes and writes down
the groups on which `removeChild` would be called.
-/

namespace RabbitControl

open Lib

/-- What the parser of a proxy asks of the manager. -/
structure ParseEnv (σ : Type) where
  getGroup : σ → Id → Option Ref
  idOf : σ → Ref → Id
  removeChild : Ref → σ × Parameter → σ × Parameter

/-- The cached group under an id. -/
def Store.getGroup (s : Store) (id : Id) : Option Ref :=
  match s.params[id]? with
  | some r => if (s.heap r).isGroup then some r else none
  | none => none

/-- The proxy stands at the next free reference while its group is told to remove it. -/
def storeEnv : ParseEnv Store where
  getGroup := Store.getGroup
  idOf := Store.idOf
  removeChild g s :=
    let t := (s.1.put s.1.next s.2).removeChild g s.1.next
    (t, t.heap s.1.next)

/-- A run that only reads the store `s` and keeps a list of the groups left. -/
def dryEnv (s : Store) : ParseEnv (List Ref) where
  getGroup _ := s.getGroup
  idOf _ := s.idOf
  removeChild g t := (t.1 ++ [g], t.2)

/-! ### Options -/

section Options

variable {σ : Type}

/-- `while (peek > 0)`: the entries of a language table, each a code of three bytes and a text. -/
def parseTexts (read : Reader Bytes) (fill : Bytes → Bytes → σ → σ) :
    Nat → Option UInt8 → σ → IStream → Turn σ
  | 0, _, s, _ => .throw .hang s
  | n + 1, peek, s, is =>
    if peek = none ∨ peek = some 0 then .next s is
    else
      let code := is.read 3
      if code.2.eof then .next s code.2
      else
        match read code.2 with
        | .error e => .throw e s
        | .ok (text, is) =>
          if is.eof then .next s is
          else
            let next := is.peek
            parseTexts read fill n next.1 (fill (code.1.takeWhile (· != 0)) text s) next.2

/-- A label or a description: its entries, and the closing zero. -/
def parseText (read : Reader Bytes) (fill : Bytes → Bytes → σ → σ) (s : σ) (is : IStream) : Turn σ :=
  let peek := is.peek
  if peek.2.eof then .next s peek.2
  else
    match parseTexts read fill (is.rest.length + 1) peek.1 s peek.2 with
    | .next s is => if is.eof then .next s is else .next s is.get.2
    | t => t

/-- `resize` keeps the bytes that are there, and `read` overwrites what it gets; the stream is not checked. -/
def parseUserdata (b : Block UInt8) (is : IStream) : Block UInt8 × IStream :=
  let size := is.readBE 4
  let data := size.2.read size.1
  let kept := b.content.take size.1 ++ List.replicate (size.1 - b.content.length) 0
  (b.fill (data.1 ++ kept.drop data.1.length), data.2)

/-- The `PARENTID` option.  Naming the parent that is set already ends the option list. -/
def parseParent (env : ParseEnv σ) (s : σ × Parameter) (is : IStream) : Turn (σ × Parameter) :=
  let id := readInt16 is
  if id.2.eof then .next s id.2
  else if id.1 = 0 then .next s id.2
  else
    match env.getGroup s.1 id.1 with
    | none => .next s id.2
    | some g =>
      match s.2.parent with
      | some p =>
        if env.idOf s.1 g = env.idOf s.1 p then .leave s id.2
        else
          let s := env.removeChild p s
          .next (s.1, { s.2 with parent := some g }) id.2
      | none => .next (s.1, { s.2 with parent := some g }) id.2

/-- `handleOption`: a value parameter knows one more option; what is not known ends the option list. -/
def handleOption (s : σ × Parameter) (opt : Option UInt8) (is : IStream) : Turn (σ × Parameter) :=
  match s.2.kind with
  | .value τ d v =>
    if opt = some 32 then
      match readValue τ is with
      | .error e => .throw e s
      | .ok (x, is) => if is.eof then .leave s is else .next (s.1, { s.2 with kind := .value τ d (v.fill x) }) is
    else .leave s is
  | _ => .leave s is

/-- One option of a parameter. -/
def parseOption (env : ParseEnv σ) (s : σ × Parameter) (opt : Option UInt8) (is : IStream) :
    Turn (σ × Parameter) :=
  match opt with
  | some 33 => parseText readTinyString (fun c t s => (s.1, { s.2 with label := s.2.label.fill c t })) s is
  | some 34 =>
    parseText readShortString (fun c t s => (s.1, { s.2 with description := s.2.description.fill c t })) s is
  | some 35 => readOption readTinyString (fun v s => (s.1, { s.2 with tags := s.2.tags.fill v })) s is
  | some 36 => readOption (readBits 4) (fun v s => (s.1, { s.2 with order := s.2.order.fill v })) s is
  | some 37 => parseParent env s is
  | some 38 => .next s is
  | some 39 =>
    let r := parseUserdata s.2.userdata is
    .next (s.1, { s.2 with userdata := r.1 }) r.2
  | some 40 => readOption readTinyString (fun v s => (s.1, { s.2 with userid := s.2.userid.fill v })) s is
  | some 41 => readOption readBool (fun v s => (s.1, { s.2 with readonly := s.2.readonly.fill v })) s is
  | _ => handleOption s opt is

/-- The type definition of a proxy; that of a bang or a group is a single byte. -/
def Kind.parseDefinition : Kind → IStream → Outcome Kind
  | value τ d s, is => (d.parseOptions is).map fun d => .value τ d s
  | k, is => .done k is.get.2

end Options

/-! ### Parameters -/

/-- `ParameterFactory::createParameter`. -/
def parameterType : UInt8 → Option ParameterType
  | 16 => some (.value .boolean)
  | 33 => some (.value .string)
  | 34 => some (.value .rgb)
  | 35 => some (.value .rgba)
  | 36 => some (.value .enum)
  | 39 => some .bang
  | 40 => some .group
  | 42 => some (.value .uri)
  | 43 => some (.value .ipv4)
  | 44 => some (.value .ipv6)
  | d => (NumberType.ofDatatype d).map fun t => .value (.number t)

/-- The type of the parameter that `ParameterParser::parse` creates: a range reads the type of its elements. -/
def readParameterType (datatype : UInt8) (is : IStream) : Option ParameterType × IStream :=
  if datatype = 45 then
    let element := is.get
    ((element.1.bind NumberType.ofDatatype).map fun t => .value (.range t), element.2)
  else (parameterType datatype, is)

/-- The second half of `ParameterParser::parse`: a parameter that could be created reads its definition and its
options. -/
def parseProxy {σ : Type} (env : ParseEnv σ) (mem : Memory) (id : Id) (type : ParameterType) (s : σ) (is : IStream) :
    Outcome (σ × Option Parameter) :=
  let p := Parameter.create mem id type
  match p.kind.parseDefinition is with
  | .throw e k => .throw e (s, some { p with kind := k })
  | .done k is =>
    (optionList (parseOption env) (s, { p with kind := k, managed := true }) is).map fun s => (s.1, some s.2)

/-- `ParameterParser::parse`; no parameter stands for the null pointer. -/
def parseParameter {σ : Type} (env : ParseEnv σ) (mem : Memory) (s : σ) (is : IStream) :
    Outcome (σ × Option Parameter) :=
  let id := readInt16 is
  if id.2.eof then .done (s, none) id.2
  else
    let type := id.2.get
    match type.1 with
    | none => .done (s, none) type.2
    | some d =>
      if d ≥ datatypeMax then .done (s, none) type.2
      else
        match readParameterType d type.2 with
        | (none, is) => .done (s, none) is
        | (some t, is) => parseProxy env mem id.1 t s is

/-- `ParameterParser::parseUpdateValue`: a proxy that has no manager and only a value. -/
def parseUpdateValue (mem : Memory) (is : IStream) : Except Stop (Option Parameter) :=
  let id := readInt16 is
  let type := id.2.get
  match type.1.bind parameterType with
  | some (.value τ) =>
    match readValue τ type.2 with
    | .error e => .error e
    | .ok (v, _) => .ok (some ((Parameter.create mem id.1 (.value τ)).apply (.setValue v)).1)
  | _ => .ok none

end RabbitControl

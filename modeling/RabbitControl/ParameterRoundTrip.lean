import RabbitControl.DefinitionRoundTrip

/-!
# Parameters read back

What the parser makes of a parameter that was written.  The options of a parameter without user data are read one
after the other as what is sent of them (`consumes_options`), and so is the whole parameter (`parseParameter_write`).
-/

namespace RabbitControl

open Lib

/-! ### Options of a parameter -/

/-- What `PARENTID` is sent with: the id of the parent, zero if there is none any more. -/
def Parameter.sentParent (idOf : Ref → Id) (all : Bool) (p : Parameter) : Option Id :=
  match p.parent with
  | some g => if all || p.parentChanged then some (idOf g) else none
  | none => if p.parentChanged then some 0 else none

/-- The strings of a parameter are short enough to be read. -/
structure Parameter.Readable (p : Parameter) : Prop where
  label : p.label.Readable 127
  description : p.description.Readable 65534
  tags : ∀ s ∈ p.tags.get?, s.length ≤ 127
  userid : ∀ s ∈ p.userid.get?, s.length ≤ 127

/-- Store what is sent of the options of `p`; `parent` is the group that it names. -/
def Parameter.receiveOptions (all : Bool) (p : Parameter) (parent : Option Ref) (into : Parameter) : Parameter :=
  { into with
    label := into.label.receive (p.label.sent all)
    description := into.description.receive (p.description.sent all)
    tags := into.tags.receive (p.tags.sent all [])
    order := into.order.receive (p.order.sent all 0)
    parent := parent
    userid := into.userid.receive (p.userid.sent all [])
    readonly := into.readonly.receive (p.readonly.sent all false) }

section Parse

variable {σ : Type} {env : ParseEnv σ} {mem : Memory} {x : σ} {p into : Parameter} {all : Bool} {idOf : Ref → Id}

/-- The cached group that a sent `PARENTID` names; zero names none. -/
def namedGroup (env : ParseEnv σ) (x : σ) (id : Option Id) : Option Ref :=
  id.bind fun id => if id = 0 then none else env.getGroup x id

theorem foldl_snd (f : Bytes → Bytes → Parameter → Parameter) (es : List (Bytes × Bytes)) (p : Parameter) :
    es.foldl (fun (s : σ × Parameter) e => (s.1, f e.1 e.2 s.2)) (x, p) =
      (x, es.foldl (fun p e => f e.1 e.2 p) p) := by
  induction es generalizing p with
  | nil => rfl
  | cons e es ih => exact ih _

theorem foldl_label (es : List (Bytes × Bytes)) (p : Parameter) :
    es.foldl (fun p e => { p with label := p.label.fill e.1 e.2 }) p = { p with label := p.label.receive es } := by
  induction es generalizing p with
  | nil => rfl
  | cons e es ih => exact ih _

theorem foldl_description (es : List (Bytes × Bytes)) (p : Parameter) :
    es.foldl (fun p e => { p with description := p.description.fill e.1 e.2 }) p =
      { p with description := p.description.receive es } := by
  induction es generalizing p with
  | nil => rfl
  | cons e es ih => exact ih _

/-- A parameter without a parent gets the group that is named. -/
private theorem turnsOn_parent (hparent : into.parent = none) (id : Id) :
    TurnsOn (parseOption env) (x, into) 37 (writeInt16 id) (x, { into with parent := namedGroup env x (some id) }) := by
  intro tail junk
  have hinto : ({ into with parent := none } : Parameter) = into := by rw [← hparent]
  have hturn : ∀ is, parseOption env (x, into) (some 37) is = parseParent env (x, into) is := fun _ => rfl
  rw [hturn, parseParent, readInt16_append]
  dsimp only
  rw [if_neg (by simp), namedGroup, Option.bind_some]
  split
  · rw [hinto]
  · cases env.getGroup x id with
    | none => dsimp only; rw [hinto]
    | some g => dsimp only; rw [hparent]

theorem consumes_parent (hparent : into.parent = none) :
    Consumes (parseOption env) (x, into)
      (fieldBytes (writeOption .parentId p.parent.isSome p.parentChanged all
        (writeInt16 ((p.parent.map idOf).getD 0)) (writeInt16 0)).1)
      (x, { into with parent := namedGroup env x (p.sentParent idOf all) }) := by
  refine consumes_writeOption (fun hp hc => ?_) (fun hp hc => ?_) fun hn => ?_
  · obtain ⟨g, hg⟩ := Option.isSome_iff_exists.mp hp
    rw [Parameter.sentParent, hg]
    dsimp only
    rw [if_pos hc]
    exact turnsOn_parent hparent (idOf g)
  · rw [Option.isSome_eq_false_iff, Option.isNone_iff_eq_none] at hp
    rw [Parameter.sentParent, hp]
    dsimp only
    rw [if_pos hc]
    exact turnsOn_parent hparent 0
  · have hs : p.sentParent idOf all = none := by
      unfold Parameter.sentParent
      cases hp : p.parent <;> simp_all
    rw [hs]
    show (x, { into with parent := none }) = (x, into)
    rw [← hparent]

/-- User data that are cleared are read as none. -/
theorem consumes_userdata (hp : p.userdata.content = []) (hinto : into.userdata.content = []) :
    Consumes (parseOption env) (x, into)
      (fieldBytes (p.userdata.write .userdata (fun d => d.take (d.length % 2 ^ 32)) (encodeBE 4 0) all).1)
      (x, into) := by
  refine consumes_writeOption (fun hh _ => ?_) (fun _ _ tail junk => ?_) fun _ => rfl
  · simp [Block.has, hp] at hh
  · show Turn.next (x, { into with userdata := (parseUserdata into.userdata _).1 }) (parseUserdata into.userdata _).2 = _
    have hfill : into.userdata.fill [] = into.userdata := by rw [← hinto]; rfl
    have hread : parseUserdata into.userdata { rest := encodeBE 4 0 ++ tail, junk := junk } =
        (into.userdata, { rest := tail, junk := junk }) := by
      rw [parseUserdata, IStream.readBE_encodeBE]
      simp [IStream.read, IStream.good, hinto, hfill]
    rw [hread]

theorem consumes_label (hp : p.label.Readable 127) (into : Parameter) :
    Consumes (parseOption env) (x, into) (fieldBytes (p.label.write .label writeTinyString all).1)
      (x, { into with label := into.label.receive (p.label.sent all) }) := by
  have h : Consumes (parseOption env) (x, into) (fieldBytes (p.label.write .label writeTinyString all).1) _ :=
    Text.consumes_write hp reads_tinyString fun _ => rfl
  rwa [foldl_snd (fun c t p => { p with label := p.label.fill c t }), foldl_label] at h

theorem consumes_description (hp : p.description.Readable 65534) (into : Parameter) :
    Consumes (parseOption env) (x, into) (fieldBytes (p.description.write .description writeShortString all).1)
      (x, { into with description := into.description.receive (p.description.sent all) }) := by
  have h : Consumes (parseOption env) (x, into)
      (fieldBytes (p.description.write .description writeShortString all).1) _ :=
    Text.consumes_write hp reads_shortString fun _ => rfl
  rwa [foldl_snd (fun c t p => { p with description := p.description.fill c t }), foldl_description] at h

theorem consumes_tags (hp : ∀ s ∈ p.tags.get?, s.length ≤ 127) (into : Parameter) :
    Consumes (parseOption env) (x, into)
      (fieldBytes (p.tags.write .tags writeTinyString (writeTinyString []) all).1)
      (x, { into with tags := into.tags.receive (p.tags.sent all []) }) :=
  Slot.consumes_write (fun s => (x, { into with tags := s })) rfl (fun _ => rfl) rfl
    fun _ hv => reads_tinyString (Slot.length_sent hp hv)

theorem consumes_order (into : Parameter) :
    Consumes (parseOption env) (x, into)
      (fieldBytes (p.order.write .order (fun v => encodeBE 4 v.toNat) (encodeBE 4 0) all).1)
      (x, { into with order := into.order.receive (p.order.sent all 0) }) := by
  have hturn : ∀ is, parseOption env (x, into) (some OptionId.order.code) is =
      readOption (readBits 4) (fun v _ => (x, { into with order := into.order.fill v })) (x, into) is := fun _ => rfl
  have hread : ∀ v : BitVec 32, Reads (readBits 4) (encodeBE 4 v.toNat) v := fun v => reads_bits (n := 4) v
  refine Slot.consumes_write (fun s => (x, { into with order := s })) rfl hturn ?_ fun v _ => hread v
  simp

theorem consumes_userid (hp : ∀ s ∈ p.userid.get?, s.length ≤ 127) (into : Parameter) :
    Consumes (parseOption env) (x, into)
      (fieldBytes (p.userid.write .userid writeTinyString (writeTinyString []) all).1)
      (x, { into with userid := into.userid.receive (p.userid.sent all []) }) :=
  Slot.consumes_write (fun s => (x, { into with userid := s })) rfl (fun _ => rfl) rfl
    fun _ hv => reads_tinyString (Slot.length_sent hp hv)

theorem consumes_readonly (into : Parameter) :
    Consumes (parseOption env) (x, into) (fieldBytes (p.readonly.write .readonly writeBool (writeBool false) all).1)
      (x, { into with readonly := into.readonly.receive (p.readonly.sent all false) }) :=
  Slot.consumes_write (fun s => (x, { into with readonly := s })) rfl (fun _ => rfl) rfl fun v _ => reads_bool v

/-- The options before the user data. -/
def Parameter.headFields (idOf : Ref → Id) (all : Bool) (p : Parameter) : List Field :=
  (p.label.write .label writeTinyString all).1 ++ (p.description.write .description writeShortString all).1 ++
    (p.tags.write .tags writeTinyString (writeTinyString []) all).1 ++
    (p.order.write .order (fun v => encodeBE 4 v.toNat) (encodeBE 4 0) all).1 ++
    (writeOption .parentId p.parent.isSome p.parentChanged all
      (writeInt16 ((p.parent.map idOf).getD 0)) (writeInt16 0)).1

theorem Parameter.writeOptions_eq (idOf : Ref → Id) (all : Bool) (p : Parameter) :
    (p.writeOptions idOf all).1 = p.headFields idOf all ++
      (p.userdata.write .userdata (fun d => d.take (d.length % 2 ^ 32)) (encodeBE 4 0) all).1 ++
      (p.userid.write .userid writeTinyString (writeTinyString []) all).1 ++
      (p.readonly.write .readonly writeBool (writeBool false) all).1 := rfl

/-- Store what is sent of the options before the user data. -/
def Parameter.receiveHead (all : Bool) (p : Parameter) (parent : Option Ref) (into : Parameter) : Parameter :=
  { into with
    label := into.label.receive (p.label.sent all)
    description := into.description.receive (p.description.sent all)
    tags := into.tags.receive (p.tags.sent all [])
    order := into.order.receive (p.order.sent all 0)
    parent := parent }

theorem consumes_head (hp : p.Readable) (hparent : into.parent = none) :
    Consumes (parseOption env) (x, into) (fieldBytes (p.headFields idOf all))
      (x, p.receiveHead all (namedGroup env x (p.sentParent idOf all)) into) := by
  rw [Parameter.headFields]
  simp only [fieldBytes_append]
  exact ((((consumes_label hp.label into).append (consumes_description hp.description _)).append
    (consumes_tags hp.tags _)).append (consumes_order _)).append (consumes_parent hparent)

/-- The options of a parameter without user data are read as what is sent of them. -/
theorem consumes_options (hp : p.Readable) (hdata : p.userdata.content = []) (hparent : into.parent = none)
    (hinto : into.userdata.content = []) :
    Consumes (parseOption env) (x, into) (fieldBytes (p.writeOptions idOf all).1)
      (x, p.receiveOptions all (namedGroup env x (p.sentParent idOf all)) into) := by
  rw [Parameter.writeOptions_eq]
  simp only [fieldBytes_append]
  exact (((consumes_head hp hparent).append (consumes_userdata hdata hinto)).append
    (consumes_userid hp.userid _)).append (consumes_readonly _)

/-- The value option is read if a value is sent. -/
theorem consumes_value {τ : ValueType} (hτ : τ ≠ .enum) {v : Slot τ.Val}
    (hv : ∀ u, v.sent all v.content = some u → τ.Fits u) (d : TypeDefinition τ) (w : Slot τ.Val) (into : Parameter) :
    Consumes (parseOption env) (x, { into with kind := .value τ d w })
      (fieldBytes (v.write .value (writeValue τ) (writeValue τ v.content) all).1)
      (x, { into with kind := .value τ d (w.receive (v.sent all v.content)) }) := by
  have hturn : ∀ {w is u is'}, readValue τ is = .ok (u, is') → is'.eof = false →
      parseOption env (x, { into with kind := .value τ d w }) (some OptionId.value.code) is =
        .next (x, { into with kind := .value τ d (w.fill u) }) is' := by
    intro w is u is' hread heof
    show handleOption (x, { into with kind := .value τ d w }) (some 32) is = _
    unfold handleOption
    dsimp only
    rw [if_pos rfl, hread]
    dsimp only
    rw [heof]
    rfl
  have h : Consumes (parseOption env) (x, { into with kind := .value τ d w })
      (fieldBytes (v.write .value (writeValue τ) (writeValue τ v.content) all).1)
      (x, { into with kind := .value τ d (w.receive ((v.sent all v.content).map id)) }) := by
    refine Slot.consumes_turns (fun w => (x, { into with kind := .value τ d w })) id rfl rfl fun u hu tail junk => ?_
    exact hturn (reads_value hτ (hv u hu) ..) rfl
  rwa [Option.map_id] at h

end Parse

/-! ### Parameters -/

/-- The type that a parameter of this kind is constructed at. -/
def Kind.type : Kind → ParameterType
  | value τ _ _ => .value τ
  | bang => .bang
  | group _ => .group
  | invalid => .invalid

theorem datatype_of_type {j k : Kind} (h : j.type = k.type) : j.datatype = k.datatype := by
  cases j <;> cases k <;> simp_all [Kind.type, Kind.datatype]

theorem type_create (mem : Memory) (id : Id) (type : ParameterType) :
    (Parameter.create mem id type).kind.type = type := by cases type <;> rfl

/-- The bytes that a parameter of this type starts with after its id. -/
def ParameterType.mandatory : ParameterType → Bytes
  | value τ => τ.mandatory
  | bang => [datatypeBang]
  | group => [datatypeGroup]
  | invalid => [datatypeMax]

/-- The types whose parameters are read back here. -/
def ParameterType.readsBack : ParameterType → Bool
  | value τ => τ.readsBack
  | bang | group => true
  | invalid => false

/-- A parameter that was just read from a packet. -/
def Parameter.proxy (mem : Memory) (id : Id) (k : Kind) : Parameter where
  parameterId := id
  kind := k
  readonly := ⟨mem.hasReadonly, false, mem.readonlyChanged⟩
  managed := true

/-- The value that is sent fits its length, and the strings of the definition are short enough to be read. -/
def Kind.Readable (all : Bool) : Kind → Prop
  | value τ d v => d.Readable ∧ ∀ u, v.sent all v.content = some u → τ.Fits u
  | _ => True

/-- What a reader makes of a kind: one of the same type, with the definition and the value that were sent. -/
inductive Kind.Received (mem : Memory) (all : Bool) : Kind → Kind → Prop
  | value {τ : ValueType} {d d' : TypeDefinition τ} {v : Slot τ.Val}
      (hd : d.ZeroBlank → d.Returned (List.take 4294967295) all d') :
      Received mem all (.value τ d v) (.value τ d' (Slot.receive (v.sent all v.content) { content := τ.blank mem }))
  | bang : Received mem all .bang .bang
  | group {c : Std.ExtTreeMap Int16 Ref} : Received mem all (.group c) (.group ∅)

section Parse

variable {σ : Type} {env : ParseEnv σ} {mem : Memory} {x : σ} {p : Parameter} {all : Bool} {idOf : Ref → Id}

/-- The id and the type come first; a range names its elements as well. -/
theorem parseParameter_typed {type : ParameterType} (h : type.readsBack = true) (id : Id) (x : σ) (rest : Bytes)
    (junk : Nat → UInt8) :
    parseParameter env mem x { rest := writeInt16 id ++ (type.mandatory ++ rest), junk := junk } =
      parseProxy env mem id type x { rest := rest, junk := junk } := by
  have hread : ∀ {d : UInt8} {l : Bytes} {is : IStream}, type.mandatory = d :: l → d < datatypeMax →
      readParameterType d { rest := l ++ rest, junk := junk } = (some type, is) →
      parseParameter env mem x { rest := writeInt16 id ++ (type.mandatory ++ rest), junk := junk } =
        parseProxy env mem id type x is := by
    intro d l is hmandatory hmax hread
    rw [hmandatory, parseParameter, readInt16_append]
    dsimp only
    rw [if_neg (by simp), List.cons_append, IStream.get_cons]
    dsimp only
    rw [if_neg (by simpa using hmax), hread]
  cases type with
  | value τ =>
    cases τ with
    | number t => cases t <;> exact hread rfl (by decide) rfl
    | range t => cases t <;> exact hread rfl (by decide) rfl
    | boolean | string | rgb | rgba | ipv4 | ipv6 | uri => exact hread rfl (by decide) rfl
    | enum | custom => exact absurd h Bool.false_ne_true
  | bang | group => exact hread rfl (by decide) rfl
  | invalid => exact absurd h Bool.false_ne_true

/-- The definition and the value of a parameter are read as what is sent of them. -/
theorem Kind.parse_write {k : Kind} (htype : k.type.readsBack = true) (hk : k.Readable all) (mem : Memory) :
    ∃ body k₀ k₁, (k.write all).1.1.bytes = k.type.mandatory ++ body ∧ Kind.Received mem all k k₁ ∧
      (∀ tail junk, (Kind.make mem k.type).parseDefinition { rest := body ++ tail, junk := junk } =
        .done k₀ { rest := tail, junk := junk }) ∧
      ∀ (σ : Type) (env : ParseEnv σ) (x : σ) (into : Parameter),
        Consumes (parseOption env) (x, { into with kind := k₀ }) (fieldBytes (k.write all).1.2)
          (x, { into with kind := k₁ }) := by
  cases k with
  | value τ d v =>
    obtain ⟨body, hbytes, d', hreturned, hparse⟩ := TypeDefinition.parseOptions_write htype all d hk.1 mem
    have henum : τ ≠ .enum := by
      rintro rfl
      exact Bool.false_ne_true htype
    refine ⟨body, .value τ d' { content := τ.blank mem }, _, hbytes, .value hreturned, fun tail junk => ?_,
      fun σ env x into => ?_⟩
    · exact congrArg (Outcome.map _) (hparse tail junk)
    · exact consumes_value henum hk.2 d' _ into
  | bang => exact ⟨[0], .bang, _, rfl, .bang, fun _ _ => rfl, fun _ _ _ _ => .nil _⟩
  | group c => exact ⟨[0], .group ∅, _, rfl, .group, fun _ _ => rfl, fun _ _ _ _ => .nil _⟩
  | invalid => exact absurd htype Bool.false_ne_true

/-- A parameter without user data that was written in full is read back as what was sent of it. -/
theorem parseParameter_write (hp : p.Readable) (hdata : p.userdata.content = []) (htype : p.kind.type.readsBack = true)
    (hkind : p.kind.Readable all) (idOf : Ref → Id) (mem : Memory) :
    ∃ k, Kind.Received mem all p.kind k ∧ ∀ (σ : Type) (env : ParseEnv σ) (x : σ) tail junk,
      parseParameter env mem x { rest := (p.writeFull idOf all).1.bytes ++ tail, junk := junk } =
        .done (x, some (p.receiveOptions all (namedGroup env x (p.sentParent idOf all)) (.proxy mem p.parameterId k)))
          { rest := tail, junk := junk } := by
  obtain ⟨body, k₀, k₁, hbytes, hreceived, hdefinition, hvalue⟩ := Kind.parse_write htype hkind mem
  refine ⟨k₁, hreceived, fun σ env x tail junk => ?_⟩
  have hwrite : (p.writeFull idOf all).1.bytes ++ tail = writeInt16 p.parameterId ++ (p.kind.type.mandatory ++
      (body ++ (fieldBytes ((p.kind.write all).1.2 ++ (p.writeOptions idOf all).1) ++ 0 :: tail))) := by
    simp [Parameter.writeFull, Body.bytes, hbytes]
  have hrest : Consumes (parseOption env) (x, Parameter.proxy mem p.parameterId k₁) (fieldBytes (p.writeOptions idOf all).1)
      (x, p.receiveOptions all (namedGroup env x (p.sentParent idOf all)) (.proxy mem p.parameterId k₁)) :=
    consumes_options hp hdata rfl rfl
  have hoptions := (hvalue σ env x (.proxy mem p.parameterId k₀)).append hrest
  rw [← fieldBytes_append] at hoptions
  have hdef : (Parameter.create mem p.parameterId p.kind.type).kind.parseDefinition
      { rest := body ++ (fieldBytes ((p.kind.write all).1.2 ++ (p.writeOptions idOf all).1) ++ 0 :: tail), junk := junk } =
        _ := hdefinition _ junk
  rw [hwrite, parseParameter_typed htype, parseProxy, hdef]
  exact congrArg (Outcome.map _) (optionList_of_consumes hoptions tail junk)

end Parse

end RabbitControl

import RabbitControl.LocalParsers
import RabbitControl.PacketId
import RabbitControl.ParameterRoundTrip

/-!
# The options of a parameter read back

When `Parameter::parseOptions` on a fresh parameter reads back the options of a parameter without pending changes
(`options_read_iff`).  User data never come back: they are written without the length that the reader expects.  That
no accident in the bytes of the user data makes up for it follows from what the parsed options cost in bytes
(`cost_parseOption`).
-/

namespace RabbitControl

open Lib IStream

/-! ### Leaving a group -/

/-- A proxy that leaves a group keeps its user data, its user id and its value. -/
theorem removeChild_proxy (g : Ref) (x : Store × Parameter) :
    (storeEnv.removeChild g x).2.userdata = x.2.userdata ∧ (storeEnv.removeChild g x).2.userid = x.2.userid ∧
      ((storeEnv.removeChild g x).2.kind = x.2.kind ∨ (storeEnv.removeChild g x).2.isGroup = true) := by
  obtain ⟨s, p⟩ := x
  have hp : (s.put s.next p).heap s.next = p := if_pos rfl
  set t := s.put s.next p with ht
  show (((t.removeChild g s.next).heap s.next).userdata = p.userdata ∧
    ((t.removeChild g s.next).heap s.next).userid = p.userid ∧
    (((t.removeChild g s.next).heap s.next).kind = p.kind ∨ ((t.removeChild g s.next).heap s.next).isGroup = true))
  by_cases hg : g = s.next
  · by_cases hc : t.idOf s.next ∈ t.children g
    · have hgroup : p.isGroup = true := by
        have h := Store.isGroup_of_mem_children hc
        rwa [hg, hp] at h
      have hgroup' : ((t.removeChild g s.next).heap s.next).isGroup = true :=
        ((Store.frame_removeChild t g s.next).isGroup s.next).trans (by rwa [hp])
      have hheap : (t.removeChild g s.next).heap s.next =
          ({ p with parent := none, parentChanged := true } : Parameter).modifyChildren (·.erase (t.idOf s.next)) := by
        rw [Store.removeChild, if_pos hc]
        simp [Store.modify, Store.put, Store.clearParent, hg, hp]
      refine ⟨?_, ?_, Or.inr hgroup'⟩ <;> rw [hheap, Parameter.modifyChildren] <;> split <;> rfl
    · rw [Store.removeChild, if_neg hc, hp]
      exact ⟨rfl, rfl, Or.inl rfl⟩
  · rw [Store.heap_removeChild_self hg, hp]
    split <;> exact ⟨rfl, rfl, Or.inl rfl⟩

/-! ### Short values -/

/-- The value of a kind is one that its reader can take the length of. -/
def Kind.Short : Kind → Prop
  | value τ _ v => τ.Fits v.content
  | _ => True

theorem length_readLongString {is is' : IStream} {s : Bytes} (h : readLongString is = .ok (s, is')) :
    s.length < 4294967296 := by
  have hsize : (is.readBE 4).1 < 256 ^ 4 := by
    have hlen : (is.readInto 4).1.length = 4 := by
      have hle : (is.read 4).1.length ≤ 4 := by
        unfold IStream.read
        split_ifs
        all_goals simp
        all_goals omega
      simp [IStream.readInto]
      omega
    have hlt := decodeBE_lt (is.readInto 4).1
    rwa [hlen] at hlt
  have hs := congrArg (fun r => r.1.length) (Except.ok.inj h)
  have hread : ((is.readBE 4).2.read (is.readBE 4).1).1.length ≤ (is.readBE 4).1 := by
    unfold IStream.read
    split_ifs
    all_goals simp
    all_goals omega
  simp only [readChars, List.length_append, List.length_replicate] at hs
  omega

/-- What is read can be written with its length. -/
theorem fits_readValue {τ : ValueType} {x : τ.Val} {is is' : IStream}
    (h : readValue τ is = .ok (x, is')) : τ.Fits x := by
  cases τ with
  | string | uri => exact length_readLongString h
  | _ => trivial

theorem fits_blank (mem : Memory) (τ : ValueType) : τ.Fits (τ.blank mem) := by
  cases τ with
  | string | uri => exact Nat.zero_lt_succ _
  | _ => trivial

/-- The values that are parsed are short. -/
theorem short_parseOption (s : Store × Parameter) (opt : Option UInt8) (is : IStream) (h : s.2.kind.Short) :
    (parseOption storeEnv s opt is).state.2.kind.Short := by
  refine parseOption_keeps (P := fun s => s.2.kind.Short) (fun _ hk _ _ h => ?_) (fun _ _ _ h => h) (fun _ _ _ h => h)
    (fun _ hr _ => fits_readValue hr) (fun g x h => ?_) s is h
  · show Kind.Short _
    rw [hk]
    exact h
  · rcases (removeChild_proxy g x).2.2 with hk | hg
    · rwa [hk]
    · unfold Parameter.isGroup at hg
      unfold Kind.Short
      split at hg
      · next hk => rw [hk]; trivial
      · exact absurd hg Bool.false_ne_true

/-! ### What the options cost -/

/-- The bytes that the user data and the user id of a parameter take. -/
def Parameter.dataCost (p : Parameter) : Nat :=
  (if p.userdata.content = [] then 0 else 5 + p.userdata.content.length) +
    if p.userid.has then 2 + p.userid.content.length else 0

/-- A tiny string that is read before the end of the stream takes its length and its characters. -/
theorem length_tinyString {is is' : IStream} {s : Bytes} (his : is.Steady) (h : readTinyString is = .ok (s, is'))
    (he : is'.eof = false) : is'.rest.length + 1 + s.length = is.rest.length := by
  unfold readTinyString at h
  dsimp only at h
  split at h
  · exact absurd h (by simp)
  · have hbe := local_pair (local_readBE 1) his
    have hread := local_pair (local_read (is.readBE 1).1) hbe.1.steady
    obtain ⟨hs, his'⟩ := Prod.ext_iff.mp (Except.ok.inj h)
    have he' : ((is.readBE 1).2.read (is.readBE 1).1).2.eof = false := by
      have hsame : (readChars (is.readBE 1).1 (is.readBE 1).2).2 = ((is.readBE 1).2.read (is.readBE 1).1).2 := rfl
      rw [← hsame, his', he]
    have hsize := length_readBE his (hread.1.eof_false he')
    have hchars := length_read hbe.1.steady he'
    have hlength := congrArg List.length hs
    have hrest := congrArg (fun is => is.rest.length) his'
    simp only [readChars, List.length_append, List.length_replicate] at hlength hrest
    omega

/-- User data that are read before the end of the stream take their length and their bytes. -/
theorem cost_userdata {is : IStream} {b : Block UInt8} (his : is.Steady) (he : (parseUserdata b is).2.eof = false) :
    (parseUserdata b is).2.rest.length + 4 + (parseUserdata b is).1.content.length = is.rest.length := by
  have hbe := local_pair (local_readBE 4) his
  have hread := local_pair (local_read (is.readBE 4).1) hbe.1.steady
  have hsize := length_readBE his (hread.1.eof_false he)
  have hdata := length_read hbe.1.steady he
  simp only [parseUserdata, Block.fill, List.length_append, List.length_drop, List.length_take, List.length_replicate]
  omega

/-- An option other than user data and user ids leaves both as they are. -/
theorem dataCost_parseOption {opt : Option UInt8} (h39 : opt ≠ some 39) (h40 : opt ≠ some 40) (s : Store × Parameter)
    (is : IStream) : (parseOption storeEnv s opt is).state.2.dataCost = s.2.dataCost := by
  have h : (parseOption storeEnv s opt is).state.2.userdata = s.2.userdata ∧
      (parseOption storeEnv s opt is).state.2.userid = s.2.userid :=
    parseOption_keeps (P := fun x => x.2.userdata = s.2.userdata ∧ x.2.userid = s.2.userid)
      (fun _ _ hd hi h => ⟨hd.trans h.1, hi.trans h.2⟩) (fun h => absurd h h39) (fun h => absurd h h40)
      (fun _ _ h => h)
      (fun g x h => ⟨(removeChild_proxy g x).1.trans h.1, (removeChild_proxy g x).2.1.trans h.2⟩) s is ⟨rfl, rfl⟩
  rw [Parameter.dataCost, h.1, h.2, Parameter.dataCost]

/-- A turn that goes on pays for what it adds. -/
theorem cost_parseOption {s s' : Store × Parameter} {opt : Option UInt8} {is is' : IStream} (his : is.Steady)
    (h : parseOption storeEnv s opt is = .next s' is') (he : is'.eof = false) :
    s'.2.dataCost + is'.rest.length ≤ s.2.dataCost + is.rest.length + 1 := by
  by_cases h39 : opt = some 39
  · subst h39
    obtain ⟨rfl, rfl⟩ := Turn.next.inj h
    have hcost := cost_userdata (b := s.2.userdata) his he
    simp only [Parameter.dataCost]
    split_ifs <;> omega
  by_cases h40 : opt = some 40
  · subst h40
    change readOption readTinyString (fun v s => (s.1, { s.2 with userid := s.2.userid.fill v })) s is = .next s' is' at h
    cases hr : readTinyString is with
    | error e => rw [readOption, hr] at h; exact absurd h (by simp)
    | ok r =>
      rw [readOption, hr] at h
      dsimp only at h
      split at h
      · next heof =>
        obtain ⟨-, rfl⟩ := Turn.next.inj h
        exact absurd (heof.symm.trans he) (by simp)
      · obtain ⟨rfl, rfl⟩ := Turn.next.inj h
        have hlength := length_tinyString his hr he
        simp only [Parameter.dataCost, Slot.fill, if_true]
        split_ifs <;> omega
  · have hcost := dataCost_parseOption h39 h40 s is
    have hleft := local_parseOption storeEnv s opt is his
    rw [h] at hcost hleft
    have hlength := hleft.1.length
    rw [Turn.state_next] at hcost
    omega

/-- So does one that ends the list. -/
theorem cost_parseOption_leave {s s' : Store × Parameter} {opt : Option UInt8} {is is' : IStream} (his : is.Steady)
    (h : parseOption storeEnv s opt is = .leave s' is') :
    s'.2.dataCost + is'.rest.length ≤ s.2.dataCost + is.rest.length := by
  have h39 : opt ≠ some 39 := by
    rintro rfl
    exact absurd h (by simp [parseOption])
  have h40 : opt ≠ some 40 := by
    rintro rfl
    change readOption readTinyString (fun v s => (s.1, { s.2 with userid := s.2.userid.fill v })) s is = _ at h
    unfold readOption at h
    split at h
    · exact absurd h (by simp)
    · split at h <;> exact absurd h (by simp)
  have hcost := dataCost_parseOption h39 h40 s is
  have hleft := local_parseOption storeEnv s opt is his
  rw [h] at hcost hleft
  have hlength := hleft.1.length
  rw [Turn.state_leave] at hcost
  omega

/-! ### Parameters without pending changes -/

/-- No change is pending. -/
def Parameter.Unchanged (p : Parameter) : Prop := ∀ o, p.changed o = false

/-- The options of `q` are those of `p`; `named` is the group that a parent is known as. -/
structure Parameter.SameOptions (named : Ref → Option Ref) (p q : Parameter) : Prop where
  label : q.label.get? = p.label.get?
  description : q.description.get? = p.description.get?
  tags : q.tags.get? = p.tags.get?
  order : q.order.get? = p.order.get?
  parent : q.parent = p.parent.bind named
  userdata : q.userdata.get? = p.userdata.get?
  userid : q.userid.get? = p.userid.get?
  readonly : q.readonly.get? = p.readonly.get?
  value : q.kind.observe .value = p.kind.observe .value

/-- The options and the value of `p` as they are written with `all`. -/
def Parameter.optionBytes (idOf : Ref → Id) (p : Parameter) : Bytes :=
  fieldBytes ((p.kind.write true).1.2 ++ (p.writeOptions idOf true).1)

/-- `parseOptions` of a fresh parameter of the type of `p`, in a manager `t`, reads the options of `p` and nothing of
what follows their terminator. -/
def Parameter.ReadsOptions (t : Store) (mem : Memory) (idOf : Ref → Id) (p : Parameter) (id : Id) (rest : Bytes)
    (junk : Nat → UInt8) : Prop :=
  ∃ t' q, optionList (parseOption storeEnv) (t, Parameter.proxy mem id (Kind.make mem p.kind.type))
      { rest := p.optionBytes idOf ++ 0 :: rest, junk := junk } = .done (t', q) { rest := rest, junk := junk } ∧
    p.SameOptions (fun g => t.getGroup (idOf g)) q

section Unchanged

variable {p : Parameter} {idOf : Ref → Id}

/-- What is sent for a slot without a change is what it shows. -/
theorem Slot.sent_unchanged {α : Type} {s : Slot α} (h : s.changed = false) (neutral : α) :
    s.sent true neutral = s.get? := by
  simp [sent, get?, h]

/-- The entries of a text are read as the text. -/
theorem Text.get?_receive {n : Nat} {t : Text} (h : t.Readable n) :
    (Text.receive (t.sent true) {}).get? = t.get? := by
  have hsent : t.sent true = t.entries := by
    unfold sent
    cases hp : t.present with
    | true => rfl
    | false =>
      obtain ⟨hhas, hempty⟩ : t.has = false ∧ t.languages.isEmpty = true := by simpa [present] using hp
      have hlanguages : t.languages.toList = [] := by simpa using hempty
      simp [entries, hhas, hlanguages]
  rw [hsent, receive_entries h]
  cases hh : t.has <;> simp [get?, present, hh]

theorem Parameter.sentParent_unchanged (h : p.parentChanged = false) : p.sentParent idOf true = p.parent.map idOf := by
  unfold sentParent
  cases p.parent <;> simp [h]

/-- A value without a change is read into a fresh parameter of its type. -/
theorem Kind.consumes_fresh {σ : Type} (env : ParseEnv σ) (x : σ) {k : Kind} (hchanged : k.changed .value = false)
    (hvalue : ∀ {τ d v}, k = .value τ d v → v.has = true → τ ≠ .enum ∧ τ.Fits v.content) (mem : Memory)
    (into : Parameter) :
    ∃ k', Consumes (parseOption env) (x, { into with kind := Kind.make mem k.type }) (fieldBytes (k.write true).1.2)
      (x, { into with kind := k' }) ∧ k'.observe .value = k.observe .value := by
  cases k with
  | value τ d v =>
    have hv : v.changed = false := hchanged
    have hsent := Slot.sent_unchanged hv v.content
    by_cases hhas : v.has = true
    · obtain ⟨henum, hfits⟩ := hvalue rfl hhas
      refine ⟨_, consumes_value henum (fun u hu => ?_) (.make mem τ) { content := τ.blank mem } into, ?_⟩
      · rw [hsent, Slot.get?, if_pos hhas] at hu
        rwa [← Option.some.inj hu]
      · rw [hsent]
        show Option.map _ (Slot.get? _) = _
        rw [Slot.get?_receive rfl]
        rfl
    · have hwrite : ((Kind.value τ d v).write true).1.2 = [] := by
        simp [Kind.write, Slot.write, writeOption, hhas, hv]
      rw [hwrite]
      refine ⟨_, .nil _, ?_⟩
      simp [Kind.type, Kind.make, Kind.observe, Slot.get?, hhas]
  | bang => exact ⟨_, .nil _, rfl⟩
  | group c => exact ⟨_, .nil _, rfl⟩
  | invalid => exact ⟨_, .nil _, rfl⟩

/-- What the options after the user data take. -/
theorem length_tail (hp : p.Readable) (huserid : p.userid.changed = false) (hreadonly : p.readonly.changed = false) :
    (fieldBytes (p.userid.write .userid writeTinyString (writeTinyString []) true).1).length =
        (if p.userid.has then 2 + p.userid.content.length else 0) ∧
      (fieldBytes (p.readonly.write .readonly writeBool (writeBool false) true).1).length ≤ 2 := by
  refine ⟨?_, ?_⟩
  · by_cases hh : p.userid.has = true
    · have hlength := hp.userid p.userid.content (by simp [Slot.get?, hh])
      have hwrite : writeTinyString p.userid.content = encodeBE 1 p.userid.content.length ++ p.userid.content :=
        if_neg (by omega)
      simp [Slot.write, writeOption, hh, fieldBytes, Field.bytes, hwrite]
      omega
    · simp [Slot.write, writeOption, hh, huserid, fieldBytes]
  · by_cases hh : p.readonly.has = true
    · simp [Slot.write, writeOption, hh, fieldBytes, Field.bytes, writeBool]
    · simp [Slot.write, writeOption, hh, hreadonly, fieldBytes]

/-- User data are not read back. -/
theorem userdata_of_readsOptions {t : Store} {mem : Memory} {id : Id} {rest : Bytes} {junk : Nat → UInt8}
    (hp : p.Readable) (hunchanged : p.Unchanged)
    (hvalue : ∀ {τ d v}, p.kind = .value τ d v → v.has = true → τ ≠ .enum ∧ τ.Fits v.content)
    (h : p.ReadsOptions t mem idOf id rest junk) : p.userdata.content = [] := by
  by_contra hdata
  obtain ⟨t', q, hparse, hsame⟩ := h
  have hkind : p.kind.changed .value = false := hunchanged .value
  obtain ⟨k', hfirst, -⟩ := Kind.consumes_fresh storeEnv t hkind hvalue mem (.proxy mem id .bang)
  set r := p.receiveHead true (namedGroup storeEnv t (p.sentParent idOf true)) (.proxy mem id k')
  have hhead : Consumes (parseOption storeEnv) (t, Parameter.proxy mem id k')
      (fieldBytes (p.headFields idOf true)) (t, r) := consumes_head hp rfl
  set tail := fieldBytes (p.userdata.write .userdata (fun d => d.take (d.length % 2 ^ 32)) (encodeBE 4 0) true).1 ++
    fieldBytes (p.userid.write .userid writeTinyString (writeTinyString []) true).1 ++
    fieldBytes (p.readonly.write .readonly writeBool (writeBool false) true).1 ++ 0 :: rest with htail
  have hsplit : p.optionBytes idOf ++ 0 :: rest = fieldBytes (p.kind.write true).1.2 ++
      fieldBytes (p.headFields idOf true) ++ tail := by
    rw [Parameter.optionBytes, Parameter.writeOptions_eq, htail]
    simp [fieldBytes_append]
  -- what remains after the first options has to pay for the user data
  obtain ⟨m, hm, hloop⟩ := (hfirst.append hhead) tail junk ((p.optionBytes idOf ++ 0 :: rest).length + 1)
    (by rw [hsplit]; simp only [List.length_append]; omega)
  have hend : optionLoop (parseOption storeEnv) m (t, r) { rest := tail, junk := junk } =
      .done (t', q) { rest := rest, junk := junk } := by
    rw [← hloop, ← hsplit]
    exact hparse
  have hcost := cost_optionLoop (fun s : Store × Parameter => s.2.dataCost) (local_parseOption storeEnv)
    cost_parseOption (fun his ht _ => cost_parseOption_leave his ht) (fun hf => hf) hend rfl
  have hzero : r.dataCost = 0 := rfl
  have hq : q.dataCost = 5 + p.userdata.content.length + if p.userid.has then 2 + p.userid.content.length else 0 := by
    have hhas : p.userdata.has = true := by simpa [Block.has] using hdata
    have hd : q.userdata.content = p.userdata.content := by
      have h := hsame.userdata
      simp only [Block.get?, hhas, if_true] at h
      split at h
      · exact Option.some.inj h
      · simp at h
    have hid : (if q.userid.has then 2 + q.userid.content.length else 0) =
        if p.userid.has then 2 + p.userid.content.length else 0 := by
      have h := hsame.userid
      unfold Slot.get? at h
      split_ifs at h ⊢
      · rw [Option.some.inj h]
      · rfl
    rw [Parameter.dataCost, hd, if_neg hdata, hid]
  obtain ⟨huserid, hreadonly⟩ := length_tail hp (hunchanged .userid) (hunchanged .readonly)
  have hwritten : (fieldBytes (p.userdata.write .userdata (fun d => d.take (d.length % 2 ^ 32)) (encodeBE 4 0) true).1).length ≤
      1 + p.userdata.content.length := by
    have hhas : p.userdata.has = true := by simpa [Block.has] using hdata
    simp [Block.write, writeOption, hhas, fieldBytes, Field.bytes]
  dsimp only at hcost
  rw [hzero, hq, htail] at hcost
  simp only [List.length_append, List.length_cons, huserid] at hcost
  omega

/-- Without user data the options are read as what is sent of them. -/
theorem parse_optionBytes (t : Store) (mem : Memory) (id : Id) (hp : p.Readable) (hunchanged : p.Unchanged)
    (hvalue : ∀ {τ d v}, p.kind = .value τ d v → v.has = true → τ ≠ .enum ∧ τ.Fits v.content)
    (hdata : p.userdata.content = []) :
    ∃ k, k.observe .value = p.kind.observe .value ∧ ∀ rest junk,
      optionList (parseOption storeEnv) (t, Parameter.proxy mem id (Kind.make mem p.kind.type))
          { rest := p.optionBytes idOf ++ 0 :: rest, junk := junk } =
        .done (t, p.receiveOptions true (namedGroup storeEnv t (p.parent.map idOf)) (.proxy mem id k))
          { rest := rest, junk := junk } := by
  have hkind : p.kind.changed .value = false := hunchanged .value
  obtain ⟨k, hfirst, hobserve⟩ := Kind.consumes_fresh storeEnv t hkind hvalue mem (.proxy mem id .bang)
  have hrest : Consumes (parseOption storeEnv) (t, Parameter.proxy mem id k) (fieldBytes (p.writeOptions idOf true).1)
      (t, p.receiveOptions true (namedGroup storeEnv t (p.sentParent idOf true)) (.proxy mem id k)) :=
    consumes_options hp hdata rfl rfl
  rw [Parameter.sentParent_unchanged (hunchanged .parentId)] at hrest
  refine ⟨k, hobserve, fun rest junk => ?_⟩
  rw [Parameter.optionBytes, fieldBytes_append]
  exact optionList_of_consumes (hfirst.append hrest) rest junk

/-- The value that was read back is one that the reader could take. -/
theorem fits_of_readsOptions {t : Store} {mem : Memory} {id : Id} {rest : Bytes} {junk : Nat → UInt8}
    (h : p.ReadsOptions t mem idOf id rest junk) {τ : ValueType} {d : TypeDefinition τ} {v : Slot τ.Val}
    (hk : p.kind = .value τ d v) (hv : v.has = true) : τ.Fits v.content := by
  obtain ⟨t', q, hparse, hsame⟩ := h
  have hfresh : (Parameter.proxy mem id (Kind.make mem p.kind.type)).kind.Short := by
    rw [hk]
    exact fits_blank mem τ
  have hshort : q.kind.Short := by
    have h := optionList_forall (P := fun s : Store × Parameter => s.2.kind.Short) short_parseOption
      (t, Parameter.proxy mem id (Kind.make mem p.kind.type))
      { rest := p.optionBytes idOf ++ 0 :: rest, junk := junk } hfresh
    rwa [hparse] at h
  have hvalue : q.kind.observe .value = some (.value τ v.content) := by
    rw [hsame.value, hk]
    simp [Kind.observe, Slot.get?, hv]
  rcases hq : q.kind with ⟨σ, d', w⟩ | _ | c | _ <;> rw [hq] at hvalue hshort
  · obtain ⟨u, hu, heq⟩ := Option.map_eq_some_iff.mp hvalue
    have hw : w.content = u := by
      unfold Slot.get? at hu
      split at hu
      · exact Option.some.inj hu
      · simp at hu
    injection heq with hσ hcontent
    subst hσ
    rw [← eq_of_heq hcontent, ← hw]
    exact hshort
  all_goals exact absurd hvalue (by simp [Kind.observe])

/-- The options of a parameter without pending changes are read back exactly if it has no user data, its value fits
its length, its parent is not the root group, and the readonly flag is present or absent where memory has it so. -/
theorem options_read_iff {t : Store} (hp : p.Readable) (hunchanged : p.Unchanged)
    (henum : ∀ {τ d v}, p.kind = .value τ d v → v.has = true → τ ≠ .enum)
    (hparent : ∀ g, p.parent = some g → ∃ g', t.getGroup (idOf g) = some g') (mem : Memory) (id : Id) (rest : Bytes)
    (junk : Nat → UInt8) :
    p.ReadsOptions t mem idOf id rest junk ↔
      p.userdata.content = [] ∧ (∀ {τ d v}, p.kind = .value τ d v → v.has = true → τ.Fits v.content) ∧
        (∀ g, p.parent = some g → idOf g ≠ 0) ∧ (p.readonly.has = true ∨ mem.hasReadonly = false) := by
  have hgiven : ∀ {q : Parameter} {k : Kind}, k.observe .value = p.kind.observe .value → p.userdata.content = [] →
      q = p.receiveOptions true (namedGroup storeEnv t (p.parent.map idOf)) (.proxy mem id k) →
      (p.SameOptions (fun g => t.getGroup (idOf g)) q ↔
        (∀ g, p.parent = some g → idOf g ≠ 0) ∧ (p.readonly.has = true ∨ mem.hasReadonly = false)) := by
    rintro q k hk hdata rfl
    have hreadonly : (({ has := mem.hasReadonly, content := false, changed := mem.readonlyChanged } : Slot Bool).receive
        (p.readonly.sent true false)).get? = p.readonly.get? ↔ (p.readonly.has = true ∨ mem.hasReadonly = false) := by
      rw [Slot.sent_unchanged (hunchanged .readonly)]
      cases hr : p.readonly.has <;> cases hm : mem.hasReadonly <;> simp [Slot.get?, Slot.receive, Slot.fill, hr]
    have hgroup : namedGroup storeEnv t (p.parent.map idOf) = p.parent.bind (fun g => t.getGroup (idOf g)) ↔
        ∀ g, p.parent = some g → idOf g ≠ 0 := by
      cases hg : p.parent with
      | none => simp [namedGroup]
      | some g =>
        obtain ⟨g', hg'⟩ := hparent g hg
        have hget : storeEnv.getGroup t (idOf g) = some g' := hg'
        by_cases hz : idOf g = 0 <;> simp [namedGroup, hz, hg', hget]
        rw [← hz, hg']
        simp
    refine ⟨fun h => ⟨hgroup.mp h.parent, hreadonly.mp h.readonly⟩, fun h => ?_⟩
    exact
      { label := Text.get?_receive hp.label
        description := Text.get?_receive hp.description
        tags := by
          rw [← Slot.sent_unchanged (hunchanged .tags) []]
          exact Slot.get?_receive rfl _
        order := by
          rw [← Slot.sent_unchanged (hunchanged .order) 0]
          exact Slot.get?_receive rfl _
        parent := hgroup.mpr h.1
        userdata := by simp [Block.get?, Block.has, hdata, Parameter.receiveOptions, Parameter.proxy]
        userid := by
          rw [← Slot.sent_unchanged (hunchanged .userid) []]
          exact Slot.get?_receive rfl _
        readonly := hreadonly.mpr h.2
        value := hk }
  refine ⟨fun h => ?_, fun h => ?_⟩
  · have hvalue : ∀ {τ d v}, p.kind = .value τ d v → v.has = true → τ ≠ .enum ∧ τ.Fits v.content :=
      fun hk hv => ⟨henum hk hv, fits_of_readsOptions h hk hv⟩
    have hdata := userdata_of_readsOptions hp hunchanged hvalue h
    obtain ⟨t', q, hparse, hsame⟩ := h
    obtain ⟨k, hk, hblock⟩ := parse_optionBytes t mem id hp hunchanged hvalue hdata
    rw [hblock rest junk] at hparse
    obtain ⟨hq, -⟩ := Outcome.done.inj hparse
    exact ⟨hdata, fun hk hv => (hvalue hk hv).2, (hgiven hk hdata (congrArg Prod.snd hq).symm).mp hsame⟩
  · obtain ⟨hdata, hfits, hrest⟩ := h
    obtain ⟨k, hk, hblock⟩ := parse_optionBytes t mem id hp hunchanged
      (fun hk hv => ⟨henum hk hv, hfits hk hv⟩) hdata
    exact ⟨t, _, hblock rest junk, (hgiven hk hdata rfl).mpr hrest⟩

/-- A manager with one group. -/
private def grouped : Store := ((Store.empty {}).create {} .createGroupParameter [] root).elim (.empty {}) Prod.snd

/-- A string in the group, with all options. -/
private def inscribed (userdata : Bytes) : Parameter where
  parameterId := 2
  kind := .value .string {} ⟨true, [104, 105], false⟩
  label := { has := true, content := [76] }
  description := { has := true, content := [100, 101] }
  tags := ⟨true, [97], false⟩
  order := ⟨true, 3, false⟩
  parent := some 1
  userdata := { content := userdata }
  userid := ⟨true, [117], false⟩
  readonly := ⟨true, true, false⟩

private theorem readable_inscribed (d : Bytes) : (inscribed d).Readable where
  label := ⟨fun _ => by simp [inscribed], fun h => absurd h (by simp [inscribed]),
    fun h => absurd h (by simp [inscribed])⟩
  description := ⟨fun _ => by simp [inscribed], fun h => absurd h (by simp [inscribed]),
    fun h => absurd h (by simp [inscribed])⟩
  tags := by
    intro s hs
    obtain rfl := Option.some.inj hs
    simp [inscribed]
  userid := by
    intro s hs
    obtain rfl := Option.some.inj hs
    simp [inscribed]

private theorem unchanged_inscribed (d : Bytes) : (inscribed d).Unchanged := by
  intro o
  cases o <;> rfl

private theorem value_inscribed {d : Bytes} {τ : ValueType} {e : TypeDefinition τ} {v : Slot τ.Val}
    (h : (inscribed d).kind = .value τ e v) : τ ≠ .enum ∧ τ.Fits v.content := by
  injection h with hτ _ hv
  subst hτ
  rw [← eq_of_heq hv]
  exact ⟨by decide, show 2 < 4294967296 by decide⟩

private theorem parent_inscribed {d : Bytes} {g : Ref} (h : (inscribed d).parent = some g) :
    ∃ g', grouped.getGroup (grouped.idOf g) = some g' := by
  obtain rfl := Option.some.inj h
  exact ⟨1, by decide⟩

/-- All options but the user data are read back. -/
theorem options_read_inscribed :
    (inscribed []).ReadsOptions grouped { hasReadonly := true } grouped.idOf 2 [7] (fun _ => 0) := by
  refine (options_read_iff (readable_inscribed []) (unchanged_inscribed []) (fun hk _ => (value_inscribed hk).1)
    (fun _ => parent_inscribed) { hasReadonly := true } 2 [7] _).mpr
    ⟨rfl, fun hk _ => (value_inscribed hk).2, fun g hg => ?_, Or.inl rfl⟩
  obtain rfl := Option.some.inj hg
  decide

/-- A byte of user data is not. -/
theorem userdata_not_read :
    ¬∀ {p : Parameter} {idOf : Ref → Id} {t : Store}, p.Readable → p.Unchanged →
      (∀ {τ d v}, p.kind = .value τ d v → v.has = true → τ ≠ .enum) →
      (∀ g, p.parent = some g → ∃ g', t.getGroup (idOf g) = some g') →
      ∀ mem id rest junk, p.ReadsOptions t mem idOf id rest junk := by
  intro h
  have hread := @h (inscribed [7]) grouped.idOf grouped (readable_inscribed [7]) (unchanged_inscribed [7])
    (fun hk _ => (value_inscribed hk).1) (fun _ => parent_inscribed) {} 2 [] fun _ => 0
  have hdata := userdata_of_readsOptions (readable_inscribed [7]) (unchanged_inscribed [7])
    (fun hk _ => value_inscribed hk) hread
  exact absurd hdata (by decide)

end Unchanged

end RabbitControl

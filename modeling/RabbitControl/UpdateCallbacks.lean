import RabbitControl.Merging
import RabbitControl.Operations

/-!
# Callbacks of an update

`update` decides by the change flags whether it calls back, and these may be up from earlier or stay down when an
option that was cleared gets its old content.  `fires_iff` says from which states the callbacks are run exactly if
something has changed, and for which runs of a client this is so at every packet.
-/

namespace RabbitControl

open Lib

/-! ### Single options -/

section Single

variable {α : Type}

/-- A text that is given is marked as changed if it was so before or differs. -/
theorem Text.changed_takeOver {q t : Text} (hq : q.has = true) :
    (q.takeOver t).changed = true ↔ t.changed = true ∨ t.content ≠ q.content := by
  unfold takeOver set
  rw [if_pos hq]
  by_cases h : t.content = q.content <;> simp [h]

private theorem or_ne_iff {x y : Option α} : y.or x ≠ x ↔ ∃ v, y = some v ∧ x ≠ some v := by
  cases y with
  | none => simp
  | some v =>
    rw [Option.some_or, ne_comm]
    simp

/-- With the same languages it is the plain text that makes the difference. -/
theorem Text.get?_eq_iff {t t' : Text} (h : t'.languages = t.languages) : t'.get? = t.get? ↔ t'.plain = t.plain := by
  have hhas : ∀ u : Text, u.has = u.plain.isSome := by
    intro u
    unfold plain
    cases u.has <;> rfl
  have hget : ∀ u : Text,
      u.get? = if u.plain.isSome || !u.languages.isEmpty then some (u.plain, u.languages) else none := by
    intro u
    rw [← hhas]
    rfl
  rw [hget, hget, h]
  constructor
  · intro heq
    cases hl : t.languages.isEmpty with
    | false => simpa [hl] using heq
    | true =>
      cases h' : t'.plain <;> cases ht : t.plain <;> simp [hl, h', ht] at heq ⊢
      exact heq
  · intro heq
    rw [heq]

/-- A text changes if one is given and there was none or another one. -/
theorem Text.get?_takeOver_ne (q t : Text) :
    (q.takeOver t).get? ≠ t.get? ↔ q.has = true ∧ (t.has = false ∨ t.content ≠ q.content) := by
  rw [ne_eq, get?_eq_iff (languages_takeOver q t), ← ne_eq, plain_takeOver, or_ne_iff]
  unfold plain
  cases q.has <;> cases t.has <;> simp

theorem Slot.changed_takeOver {eqv : α → α → Bool} {q t : Slot α} (hq : q.has = true) :
    (q.takeOver eqv t).changed = true ↔ t.changed = true ∨ eqv t.content q.content = false := by
  have hget : q.get? = some q.content := by rw [get?, if_pos hq]
  unfold takeOver set
  rw [hget, Option.elim_some]
  cases eqv t.content q.content <;> simp

theorem Slot.get?_takeOver_ne (eqv : α → α → Bool) (q t : Slot α) :
    (q.takeOver eqv t).get? ≠ t.get? ↔
      q.has = true ∧ (t.has = false ∨ eqv t.content q.content = false ∧ t.content ≠ q.content) := by
  rw [get?_takeOver, or_ne_iff]
  unfold get?
  cases q.has <;> cases t.has <;> by_cases h : eqv t.content q.content = true <;> simp [h]

theorem Block.get?_takeOver_ne (q t : Block α) :
    (q.takeOver t).get? ≠ t.get? ↔ q.has = true ∧ t.content ≠ q.content := by
  rw [get?_takeOver, or_ne_iff]
  unfold get? has
  by_cases hq : q.content = []
  · simp [hq]
  · by_cases ht : t.content = []
    · simp [hq, ht, Ne.symm hq]
    · simp [hq, ht]

end Single

/-! ### The options of a parameter -/

/-- The options that an update reports, value apart. -/
def OptionId.reported : OptionId → Bool
  | label | description | tags | order | parentId | userdata | userid | readonly => true
  | _ => false

namespace Parameter

/-- The parameter has the option; of a label or a description the plain text counts. -/
def gives (p : Parameter) : OptionId → Bool
  | .label => p.label.has
  | .description => p.description.has
  | .tags => p.tags.has
  | .order => p.order.has
  | .parentId => p.parent.isSome
  | .userdata => p.userdata.has
  | .userid => p.userid.has
  | .readonly => p.readonly.has
  | _ => false

/-- The parameter `p` keeps the content that `q` has for the option, be the option present in `p` or not; a parent is
told by its id. -/
def keeps (idOf : Ref → Id) (q p : Parameter) : OptionId → Bool
  | .label => p.label.content == q.label.content
  | .description => p.description.content == q.description.content
  | .tags => p.tags.content == q.tags.content
  | .order => p.order.content == q.order.content
  | .parentId =>
    match q.parent, p.parent with
    | some g, some old => idOf g == idOf old
    | _, _ => false
  | .userdata => p.userdata.content == q.userdata.content
  | .userid => p.userid.content == q.userid.content
  | .readonly => p.readonly.content == q.readonly.content
  | _ => true

variable {idOf : Ref → Id} {q p p' : Parameter} {o : OptionId}

theorem flagged_iff (q p : Parameter) : q.flagged p = true ↔ ∃ o, q.gives o = true ∧ p.changed o = true := by
  simp only [flagged, Bool.or_eq_true, Bool.and_eq_true]
  constructor
  · rintro (((((((h | h) | h) | h) | h) | h) | h) | h)
    exacts [⟨.label, h⟩, ⟨.description, h⟩, ⟨.tags, h⟩, ⟨.order, h⟩, ⟨.parentId, h⟩, ⟨.userdata, h⟩, ⟨.userid, h⟩,
      ⟨.readonly, h⟩]
  · rintro ⟨o, hg, hc⟩
    cases o <;> first | exact absurd hg Bool.false_ne_true | simp_all [gives, changed]

/-- What is marked as changed after an update: what was so before, what differs, and user data. -/
theorem Updated.changed_iff (h : Updated idOf q p p') (hg : q.gives o = true) :
    p'.changed o = true ↔ p.changed o = true ∨ keeps idOf q p o = false ∨ o = .userdata := by
  have hslot : ∀ {α : Type} [BEq α] (a b : Slot α), b.has = true →
      ((b.takeOver (· == ·) a).changed = true ↔ a.changed = true ∨ (a.content == b.content) = false) :=
    fun _ _ hb => Slot.changed_takeOver hb
  cases o with
  | label =>
    show p'.label.changed = true ↔ p.label.changed = true ∨ (p.label.content == q.label.content) = false ∨ _
    rw [h.label, Text.changed_takeOver hg]
    simp
  | description =>
    show p'.description.changed = true ↔
      p.description.changed = true ∨ (p.description.content == q.description.content) = false ∨ _
    rw [h.description, Text.changed_takeOver hg]
    simp
  | tags =>
    show p'.tags.changed = true ↔ p.tags.changed = true ∨ (p.tags.content == q.tags.content) = false ∨ _
    rw [h.tags, hslot _ _ hg]
    simp
  | order =>
    show p'.order.changed = true ↔ p.order.changed = true ∨ (p.order.content == q.order.content) = false ∨ _
    rw [h.order, hslot _ _ hg]
    simp
  | parentId =>
    show p'.parentChanged = true ↔ p.parentChanged = true ∨ _ ∨ _
    obtain ⟨g, hq⟩ := Option.isSome_iff_exists.mp hg
    rw [h.parentChanged, keeps, hq]
    cases p.parent <;> simp
  | userdata =>
    have hhas : q.userdata.has = true := hg
    have hget : q.userdata.get? = some q.userdata.content := by rw [Block.get?, if_pos hhas]
    show p'.userdata.changed = true ↔ _
    rw [h.userdata, Block.takeOver, hget]
    simp [Block.set]
  | userid =>
    show p'.userid.changed = true ↔ p.userid.changed = true ∨ (p.userid.content == q.userid.content) = false ∨ _
    rw [h.userid, hslot _ _ hg]
    simp
  | readonly =>
    show p'.readonly.changed = true ↔ p.readonly.changed = true ∨ (p.readonly.content == q.readonly.content) = false ∨ _
    rw [h.readonly, hslot _ _ hg]
    simp
  | _ => exact absurd hg Bool.false_ne_true

/-- What can be seen of an option changes if it is given and was not there or with another content. -/
theorem Updated.observe_ne_iff (h : Updated idOf q p p') (ho : o.reported = true) :
    p'.observe o ≠ p.observe o ↔ q.gives o = true ∧ (p.gives o = false ∨ keeps idOf q p o = false) := by
  have hmap : ∀ {α : Type} {f : α → Content} (hf : f.Injective) (a b : Option α), a.map f ≠ b.map f ↔ a ≠ b :=
    fun hf a b => (Option.map_injective hf).ne_iff
  have hslot : ∀ {α : Type} [BEq α] [LawfulBEq α] {f : α → Content} (hf : f.Injective) (a b : Slot α),
      (b.takeOver (· == ·) a).get?.map f ≠ a.get?.map f ↔ b.has = true ∧
        (a.has = false ∨ (a.content == b.content) = false) := by
    intro α _ _ f hf a b
    rw [hmap hf, Slot.get?_takeOver_ne]
    simp
  have htext : ∀ {f : Option Bytes × Std.ExtTreeMap Bytes Bytes → Content} (hf : f.Injective) (a b : Text),
      (b.takeOver a).get?.map f ≠ a.get?.map f ↔ b.has = true ∧ (a.has = false ∨ (a.content == b.content) = false) := by
    intro f hf a b
    rw [hmap hf, Text.get?_takeOver_ne]
    simp
  have hinj : (fun c : Option Bytes × Std.ExtTreeMap Bytes Bytes => Content.text c.1 c.2).Injective :=
    fun a b hab => Prod.ext (Content.text.inj hab).1 (Content.text.inj hab).2
  cases o with
  | label =>
    show p'.label.get?.map _ ≠ p.label.get?.map _ ↔ _
    rw [h.label]
    exact htext hinj _ _
  | description =>
    show p'.description.get?.map _ ≠ p.description.get?.map _ ↔ _
    rw [h.description]
    exact htext hinj _ _
  | tags =>
    show p'.tags.get?.map _ ≠ p.tags.get?.map _ ↔ _
    rw [h.tags]
    exact hslot (fun _ _ => Content.string.inj) _ _
  | order =>
    show p'.order.get?.map _ ≠ p.order.get?.map _ ↔ _
    rw [h.order]
    exact hslot (fun _ _ => Content.order.inj) _ _
  | parentId =>
    show p'.parent.map _ ≠ p.parent.map _ ↔ q.parent.isSome = true ∧ (p.parent.isSome = false ∨ _)
    rw [hmap fun _ _ => Content.parent.inj, h.parent, keeps]
    cases q.parent with
    | none => simp
    | some g =>
      cases p.parent with
      | none => simp
      | some old =>
        by_cases hid : idOf g = idOf old
        · simp [hid]
        · have hne : g ≠ old := fun heq => hid (by rw [heq])
          simp [hid, hne]
  | userdata =>
    show p'.userdata.get?.map _ ≠ p.userdata.get?.map _ ↔ q.userdata.has = true ∧
      (p.userdata.has = false ∨ (p.userdata.content == q.userdata.content) = false)
    rw [h.userdata, hmap fun _ _ => Content.string.inj, Block.get?_takeOver_ne]
    refine and_congr_right fun hq => ?_
    constructor
    · exact fun hne => Or.inr (by simpa using hne)
    · rintro (hp | hne)
      · intro heq
        rw [Block.has, heq] at hp
        exact absurd (hp.symm.trans hq) Bool.false_ne_true
      · simpa using hne
  | userid =>
    show p'.userid.get?.map _ ≠ p.userid.get?.map _ ↔ _
    rw [h.userid]
    exact hslot (fun _ _ => Content.string.inj) _ _
  | readonly =>
    show p'.readonly.get?.map _ ≠ p.readonly.get?.map _ ↔ _
    rw [h.readonly]
    exact hslot (fun _ _ => Content.flag.inj) _ _
  | _ => exact absurd ho Bool.false_ne_true

theorem reported_of_gives (h : q.gives o = true) : o.reported = true := by
  cases o <;> first | rfl | exact absurd h Bool.false_ne_true

/-- From this state of the cached parameter `p` an update from `q` runs its callbacks exactly if something changes.  A
value that is kept is marked as changed if and only if it is absent, and one that is not kept is not the same.  If all
other options that are given are kept, then one of them is marked as changed, or is the user data, if and only if one
of them is absent. -/
structure ReportsChanges (idOf : Ref → Id) (q p : Parameter) : Prop where
  value : ∀ {τ : ValueType} {d d' : TypeDefinition τ} {c v : Slot τ.Val}, p.kind = .value τ d c →
    q.kind = .value τ d' v → v.has = true →
      if τ.eqv c.content v.content then (c.changed = true ↔ c.has = false) else (c.has = true → c.content ≠ v.content)
  options : (∀ o, q.gives o = true → keeps idOf q p o = true) →
    ((∃ o, q.gives o = true ∧ (p.changed o = true ∨ o = .userdata)) ↔ ∃ o, q.gives o = true ∧ p.gives o = false)

end Parameter

namespace Store

open Parameter

variable {s : Store} {r other : Ref}

/-- The callbacks that an update runs tell what has changed. -/
structure FiresOnChange (s : Store) (r other : Ref) : Prop where
  value : .valueUpdated ∈ (s.update r other).2 ↔
    ((s.update r other).1.heap r).observe .value ≠ (s.heap r).observe .value
  options : .updated ∈ (s.update r other).2 ↔
    ∃ o : OptionId, o.reported = true ∧ ((s.update r other).1.heap r).observe o ≠ (s.heap r).observe o

private theorem fires_options_iff (hne : other ≠ r) (hid : s.idOf other = s.idOf r)
    (hvalue : .updated ∉ (s.updateValue r other).2) :
    (.updated ∈ (s.update r other).2 ↔
        ∃ o : OptionId, o.reported = true ∧ ((s.update r other).1.heap r).observe o ≠ (s.heap r).observe o) ↔
      ((∀ o, (s.heap other).gives o = true → keeps s.idOf (s.heap other) (s.heap r) o = true) →
        ((∃ o, (s.heap other).gives o = true ∧ ((s.heap r).changed o = true ∨ o = .userdata)) ↔
          ∃ o, (s.heap other).gives o = true ∧ (s.heap r).gives o = false)) := by
  obtain ⟨h, hcallbacks⟩ := updated_update hne hid
  set q := s.heap other
  set p := s.heap r
  set p' := (s.update r other).1.heap r
  have hfired : .updated ∈ (s.update r other).2 ↔
      ∃ o, q.gives o = true ∧ (p.changed o = true ∨ keeps s.idOf q p o = false ∨ o = .userdata) := by
    have hmem : .updated ∈ (s.update r other).2 ↔ q.flagged p' = true := by
      rw [hcallbacks, List.mem_append]
      cases q.flagged p' <;> simp [hvalue]
    rw [hmem, flagged_iff]
    exact exists_congr fun o => and_congr_right h.changed_iff
  have hseen : (∃ o : OptionId, o.reported = true ∧ p'.observe o ≠ p.observe o) ↔
      ∃ o, q.gives o = true ∧ (p.gives o = false ∨ keeps s.idOf q p o = false) := by
    refine exists_congr fun o => ?_
    constructor
    · rintro ⟨ho, hne⟩
      exact (h.observe_ne_iff ho).mp hne
    · intro ho
      have hr := reported_of_gives ho.1
      exact ⟨hr, (h.observe_ne_iff hr).mpr ho⟩
  rw [hfired, hseen]
  by_cases hkeeps : ∀ o, q.gives o = true → keeps s.idOf q p o = true
  · rw [forall_prop_of_true hkeeps]
    refine iff_congr (exists_congr fun o => and_congr_right fun ho => ?_)
      (exists_congr fun o => and_congr_right fun ho => ?_)
    · simp [hkeeps o ho]
    · simp [hkeeps o ho]
  · refine iff_of_true ?_ fun hall => absurd hall hkeeps
    obtain ⟨o, hno⟩ := not_forall.mp hkeeps
    obtain ⟨ho, hk⟩ := Classical.not_imp.mp hno
    rw [Bool.not_eq_true] at hk
    exact iff_of_true ⟨o, ho, Or.inr (Or.inl hk)⟩ ⟨o, ho, Or.inr hk⟩

/-- The value of a parameter of the same type. -/
private theorem fires_value_iff (hne : other ≠ r) (hid : s.idOf other = s.idOf r) {τ : ValueType}
    {d d' : TypeDefinition τ} {c v : Slot τ.Val} (hp : (s.heap r).kind = .value τ d c)
    (hq : (s.heap other).kind = .value τ d' v) :
    (.valueUpdated ∈ (s.update r other).2 ↔
        ((s.update r other).1.heap r).observe .value ≠ (s.heap r).observe .value) ↔
      (v.has = true →
        if τ.eqv c.content v.content then (c.changed = true ↔ c.has = false) else (c.has = true → c.content ≠ v.content)) := by
  obtain ⟨h, hcallbacks⟩ := updated_update hne hid
  have hmem : .valueUpdated ∈ (s.update r other).2 ↔ v.has = true ∧ (v.takeOver τ.eqv c).changed = true := by
    rw [hcallbacks, callbacks_updateValue hne hp hq, ← Bool.and_eq_true]
    cases (s.heap other).flagged ((s.update r other).1.heap r) <;> cases v.has && (v.takeOver τ.eqv c).changed <;> simp
  have hseen : ((s.update r other).1.heap r).observe .value ≠ (s.heap r).observe .value ↔
      (v.takeOver τ.eqv c).get? ≠ c.get? := by
    have hobserve : ∀ {x : Parameter} {e : TypeDefinition τ} {w : Slot τ.Val}, x.kind = .value τ e w →
        x.observe .value = w.get?.map (.value τ) := by
      intro x e w hx
      simp [observe, Kind.observe, hx]
    rw [hobserve (h.value hp hq), hobserve hp]
    exact (Option.map_injective fun _ _ => Content.value_inj.mp).ne_iff
  rw [hmem, hseen, Slot.get?_takeOver_ne]
  by_cases hv : v.has = true
  · rw [forall_prop_of_true hv, Slot.changed_takeOver hv]
    by_cases heq : τ.eqv c.content v.content = true
    · simp [hv, heq]
    · cases c.has <;> simp [hv, heq]
  · simp [hv]

/-- From which states an update runs its callbacks exactly if something changes. -/
theorem fires_iff (hne : other ≠ r) (hid : s.idOf other = s.idOf r)
    (htype : (s.heap other).kind.type = (s.heap r).kind.type) :
    FiresOnChange s r other ↔ ReportsChanges s.idOf (s.heap other) (s.heap r) := by
  cases hp : (s.heap r).kind with
  | value τ d c =>
    cases hq : (s.heap other).kind with
    | value σ d' v =>
      rw [hp, hq] at htype
      obtain rfl : σ = τ := ParameterType.value.inj htype
      have hno : .updated ∉ (s.updateValue r other).2 := by
        rw [callbacks_updateValue hne hp hq]
        split <;> simp
      have hvalue := fires_value_iff hne hid hp hq
      have hoptions := fires_options_iff hne hid hno
      constructor
      · intro h
        refine ⟨fun {τ' e e' c' v'} hp' hq' => ?_, hoptions.mp h.options⟩
        rw [hp] at hp'
        rw [hq] at hq'
        cases hp'
        cases hq'
        exact hvalue.mp h.value
      · exact fun h => ⟨hvalue.mpr (h.value hp hq), hoptions.mpr h.options⟩
    | _ => rw [hp, hq] at htype; exact absurd htype ParameterType.noConfusion
  | _ =>
    have hplain : ∀ τ d c, (s.heap r).kind ≠ .value τ d c := fun τ d c hk => by simp [hp] at hk
    have hnone := callbacks_updateValue_plain hne hplain
    obtain ⟨h, hcallbacks⟩ := updated_update hne hid
    have hvalue : .valueUpdated ∉ (s.update r other).2 := by
      rw [hcallbacks, hnone]
      split <;> simp
    have hsame : ((s.update r other).1.heap r).observe .value = (s.heap r).observe .value := h.observe_plain hplain .value
    have hoptions := fires_options_iff hne hid (by rw [hnone]; simp)
    constructor
    · exact fun h => ⟨fun hp' => absurd hp' (hplain _ _ _), hoptions.mp h.options⟩
    · exact fun h => ⟨iff_of_false hvalue fun hne => hne hsame, hoptions.mpr h.options⟩

/-- The state from which another parameter of the store updates `r`. -/
def ReportsRight (s : Store) (r other : Ref) : Prop :=
  other ≠ r → ReportsChanges s.idOf (s.heap other) (s.heap r)

theorem fires_iff_reportsRight (hid : s.idOf other = s.idOf r)
    (htype : (s.heap other).kind.type = (s.heap r).kind.type) :
    FiresOnChange s r other ↔ ReportsRight s r other := by
  by_cases hne : other = r
  · have hself : s.update r other = (s, []) := by rw [update, if_pos hne]
    refine iff_of_true ⟨?_, ?_⟩ fun h => absurd hne h
    · simp [hself]
    · simp [hself]
  · rw [fires_iff hne hid htype, ReportsRight, forall_prop_of_true hne]

end Store

/-! ### Runs of a client -/

/-- If the operation updates a cached parameter from one of the same id and type, then `P` holds of this update. -/
def ClientOp.Updates (P : Store → Ref → Ref → Prop) (c : Client) : ClientOp → Prop
  | .receive ch data =>
    let s := (c.store.parse ch data).state
    ∀ k p cached, (c.store.parse ch data).verdict = .accepted → (c.store.parse ch data).packet = some k →
      k.parameter = some p → s.params[p.parameterId]? = some cached → s.idOf c.store.next = s.idOf cached →
      (s.heap c.store.next).kind.type = (s.heap cached).kind.type → P s cached c.store.next
  | _ => True

/-- The callbacks of an update are run exactly if something changes from the states that report rightly, and only from
these; and so in every run of a client, whatever it has changed and not sent yet. -/
theorem callbacks_fire_iff (c : Client) (ops : List ClientOp) :
    (∀ (s : Store) (r other : Ref), s.idOf other = s.idOf r → (s.heap other).kind.type = (s.heap r).kind.type →
      (s.FiresOnChange r other ↔ s.ReportsRight r other)) ∧
    (Along Client.operate (ClientOp.Updates Store.FiresOnChange) c ops ↔
      Along Client.operate (ClientOp.Updates Store.ReportsRight) c ops) := by
  refine ⟨fun s r other => Store.fires_iff_reportsRight, along_congr fun c op => ?_⟩
  cases op with
  | receive ch data =>
    refine forall_congr' fun k => forall_congr' fun p => forall_congr' fun cached => ?_
    refine forall_congr' fun _ => forall_congr' fun _ => forall_congr' fun _ => forall_congr' fun _ => ?_
    exact forall_congr' fun hid => forall_congr' fun htype => Store.fires_iff_reportsRight hid htype
  | _ => exact Iff.rfl

/-- A label, an order and another value. -/
theorem callbacks_fire_seven : (Store.pairOf Store.cachedFive Store.incomingSeven).FiresOnChange 1 2 := by
  refine ((callbacks_fire_iff (.new {}) []).1 _ 1 2 (by decide) rfl).mpr fun _ => ⟨fun hp hq _ => ?_, fun hkeeps => ?_⟩
  · cases hp
    cases hq
    rw [if_neg (by decide)]
    exact fun _ => by decide
  · exact absurd (hkeeps .label rfl) (by decide)

/-- A client sets the value of a parameter to seven, and before it sends this it receives the same value. -/
def pendingSeven : Client :=
  run Client.operate (Client.new {})
    [.receive ⟨{}, fun _ => 0⟩ [4, 18, 0, 1, 21, 0, 32, 0, 0, 0, 5, 0], .set 1 (@Setter.setValue (.number .int32) 7#32)]

/-- The callback is run although the value stays as it is. -/
theorem callback_without_change :
    ¬((pendingSeven.store.parse ⟨{}, fun _ => 0⟩ [6, 0, 1, 21, 0, 0, 0, 7]).state).FiresOnChange 1 2 := by
  intro h
  exact h.value.mp (by decide) rfl

end RabbitControl

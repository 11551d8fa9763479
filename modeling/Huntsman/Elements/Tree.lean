import Huntsman.Canonical.Numbers
import Huntsman.Elements.Walk

/-!
# The elements are a tree, and hold every record

Every element is made by `Builder.push`, below an element that is there.  So what a walk keeps is
what one push keeps: the elements so far are a tree (`Builder.Good`) and an element holds all it
held (`Builder.Grows`).
-/

set_option autoImplicit false

namespace Huntsman.Elements

open List Std Text

/-- Whether a record is kept whole. -/
def Raw.Holds : Raw → Raw → Prop
  | .array records, r => r ∈ records
  | raw, r => raw = r

theorem Raw.Holds.add {held r : Raw} (h : held.Holds r) (raw : Raw) (hr : r ≠ .null) :
    (held.add raw).Holds r := by
  rcases held with _ | ⟨k, v, t, e⟩ | label | records
  · exact absurd h.symm hr
  all_goals rcases raw with _ | ⟨k', v', t', e'⟩ | label' | records'
  all_goals first
    | exact h
    | exact mem_append_left _ h
    | exact mem_cons.2 (.inl (Eq.symm h))

theorem Raw.add_holds (held : Raw) (evidence : Evidence) (entity : Entity) :
    (held.add (rawOf evidence entity)).Holds (rawOf evidence entity) := by
  rcases held with _ | ⟨k, v, t, e⟩ | label | records
  · exact rfl
  · exact .tail _ (.head _)
  · exact .tail _ (.head _)
  · exact mem_append_right _ (.head _)

/-- What an element is after more was added to it. -/
structure DataElement.Extends (old new : DataElement) : Prop where
  id : new.id = old.id
  kind : new.kind = old.kind
  source : new.source = old.source
  held : ∀ r, r ≠ .null → old.raw.Holds r → new.raw.Holds r

theorem DataElement.Extends.refl (e : DataElement) : e.Extends e := ⟨rfl, rfl, rfl, fun _ _ h ↦ h⟩

theorem DataElement.Extends.trans {e₁ e₂ e₃ : DataElement} (h₁ : e₁.Extends e₂)
    (h₂ : e₂.Extends e₃) : e₁.Extends e₃ :=
  ⟨h₂.id.trans h₁.id, h₂.kind.trans h₁.kind, h₂.source.trans h₁.source,
    fun r hr h ↦ h₂.held r hr (h₁.held r hr h)⟩

theorem DataElement.extends_again (e : DataElement) (new : Finding) : e.Extends (e.again new) :=
  ⟨rfl, rfl, rfl, fun _ hr h ↦ h.add _ hr⟩

namespace Builder

/-- The ids of the elements. -/
def ids (b : Builder) : List String := b.out.map (·.id)

/-- The elements' ids, and the ids of their sources. -/
def nodes (b : Builder) : List (String × Option String) := b.out.map fun e ↦ (e.id, e.source)

theorem nodes_ids (b : Builder) : b.nodes.map Prod.fst = b.ids := by
  rw [nodes, ids, map_map]
  rfl

/-- An element stays where it is, and holds what it held. -/
def Grows (b b' : Builder) : Prop :=
  ∀ (i : ℕ) (e : DataElement), b.out[i]? = some e → ∃ e', b'.out[i]? = some e' ∧ e.Extends e'

theorem Grows.refl (b : Builder) : b.Grows b := fun _ e h ↦ ⟨e, h, .refl e⟩

theorem Grows.trans {b₁ b₂ b₃ : Builder} (h₁ : b₁.Grows b₂) (h₂ : b₂.Grows b₃) : b₁.Grows b₃ := by
  intro i e he
  obtain ⟨e', he', h⟩ := h₁ i e he
  obtain ⟨e'', he'', h'⟩ := h₂ i e' he'
  exact ⟨e'', he'', h.trans h'⟩

theorem Grows.ids {b b' : Builder} (h : b.Grows b') {id : String} (hid : id ∈ b.ids) : id ∈ b'.ids := by
  obtain ⟨e, he, rfl⟩ := mem_map.1 hid
  obtain ⟨i, hi⟩ := mem_iff_getElem?.1 he
  obtain ⟨e', he', hext⟩ := h i e hi
  exact mem_map.2 ⟨e', mem_iff_getElem?.2 ⟨i, he'⟩, hext.id⟩

variable {elementId : String → String → String → String → String}

/-- What the elements made so far are. -/
structure Good (elementId : String → String → String → String → String) (b : Builder) : Prop where
  rooted : Rooted b.nodes
  indexed : ∀ (id : String) (i : ℕ), b.seen[id]? = some i ↔ b.ids[i]? = some id
  identified : ∀ e ∈ b.out, e.id = e.toFinding.id elementId

variable {b : Builder} {new : Finding}

theorem push_new (h : b.seen[new.id elementId]? = none) :
    b.push elementId new = ⟨b.out ++ [{ new with id := new.id elementId }],
      b.seen.insert (new.id elementId) b.out.length⟩ := by
  rw [push]
  simp only [h]

theorem push_again {i : ℕ} (h : b.seen[new.id elementId]? = some i) :
    b.push elementId new = { b with out := b.out.modify i (·.again new) } := by
  rw [push]
  simp only [h]

/-- An element that joins another leaves the tree as it is. -/
theorem map_modify_again {β : Type} (f : DataElement → β) (hf : ∀ e : DataElement, f (e.again new) = f e)
    (i : ℕ) : (b.out.modify i (·.again new)).map f = b.out.map f := by
  refine ext_getElem? fun j ↦ ?_
  rw [getElem?_map, getElem?_map, getElem?_modify]
  rcases b.out[j]? with _ | e
  · rfl
  · simp only [Option.map_eq_map, Option.map_some]
    split
    · rw [hf]
    · rfl

theorem grows_push : b.Grows (b.push elementId new) := by
  intro i e he
  rcases hseen : b.seen[new.id elementId]? with _ | at'
  · rw [push_new hseen]
    exact ⟨e, by rw [List.getElem?_append_left (List.getElem?_eq_some_iff.1 he).1, he], .refl e⟩
  · rw [push_again hseen, List.getElem?_modify, he]
    simp only [Option.map_eq_map, Option.map_some]
    split
    · exact ⟨_, rfl, e.extends_again new⟩
    · exact ⟨_, rfl, .refl e⟩

/-- The index of the ids after one more. -/
theorem indexed_append (h : ∀ (id : String) (i : ℕ), b.seen[id]? = some i ↔ b.ids[i]? = some id)
    {id : String}
    (hnew : b.seen[id]? = none) (k : String) (i : ℕ) :
    (b.seen.insert id b.out.length)[k]? = some i ↔ (b.ids ++ [id])[i]? = some k := by
  have hlength : b.ids.length = b.out.length := List.length_map _
  rw [TreeMap.getElem?_insert]
  by_cases hk : id = k
  · subst hk
    rw [if_pos (by simp), Option.some.injEq]
    constructor
    · rintro rfl
      rw [← hlength, List.getElem?_concat_length]
    · intro hi
      rcases Nat.lt_or_ge i b.ids.length with hlt | hge
      · rw [List.getElem?_append_left hlt, ← h, hnew] at hi
        simp at hi
      · have := (List.getElem?_eq_some_iff.1 hi).1
        rw [List.length_append, List.length_singleton] at this
        omega
  · rw [if_neg (by simpa using hk), h]
    rcases Nat.lt_or_ge i b.ids.length with hlt | hge
    · rw [List.getElem?_append_left hlt]
    · rw [List.getElem?_eq_none hge, List.getElem?_append_right hge]
      refine ⟨fun hi ↦ absurd hi (by simp), fun hi ↦ ?_⟩
      rcases hzero : i - b.ids.length with _ | n
      · rw [hzero] at hi
        exact absurd (Option.some.inj hi) hk
      · rw [hzero] at hi
        simp at hi

/-- **One push keeps the tree**, if what is pushed is below an element that is there. -/
theorem Good.push (h : b.Good elementId) {source : String} (hsource : new.source = some source)
    (hin : source ∈ b.ids) : (b.push elementId new).Good elementId := by
  rcases hseen : b.seen[new.id elementId]? with _ | i
  · rw [push_new hseen]
    have hids : ∀ b' : Builder, b'.out = b.out ++ [{ new with id := new.id elementId }] →
        b'.ids = b.ids ++ [new.id elementId] := fun b' hb' ↦ by
      rw [ids, hb', map_append]
      rfl
    refine ⟨?_, fun k i ↦ ?_, fun e he ↦ ?_⟩
    · rw [nodes, map_append, map_singleton]
      simp only [hsource]
      refine h.rooted.append (fun hmem ↦ ?_) (nodes_ids b ▸ hin)
      rw [nodes_ids] at hmem
      obtain ⟨i, hi⟩ := mem_iff_getElem?.1 hmem
      rw [← h.indexed, hseen] at hi
      simp at hi
    · rw [hids _ rfl]
      exact indexed_append h.indexed hseen k i
    · rcases mem_append.1 he with hold | hnew
      · exact h.identified e hold
      · rw [mem_singleton.1 hnew]
  · rw [push_again hseen]
    refine ⟨?_, fun k j ↦ ?_, fun e he ↦ ?_⟩
    · rw [nodes, map_modify_again _ fun _ ↦ rfl]
      exact h.rooted
    · rw [ids, map_modify_again _ fun _ ↦ rfl]
      exact h.indexed k j
    · obtain ⟨j, hj⟩ := mem_iff_getElem?.1 he
      rw [getElem?_modify] at hj
      rcases hold : b.out[j]? with _ | old
      · rw [hold] at hj
        simp at hj
      · rw [hold] at hj
        cases hj
        have hid := h.identified old (mem_iff_getElem?.2 ⟨j, hold⟩)
        simp only
        split
        · exact hid
        · exact hid

/-- What is pushed has an element, of its type where ids tell types apart, that holds what it
brings. -/
theorem Good.exists_push (h : b.Good elementId) (new : Finding)
    (hkind : ∀ e ∈ b.out, e.toFinding.id elementId = new.id elementId → e.kind = new.kind) :
    ∃ e ∈ (b.push elementId new).out, e.id = new.id elementId ∧ e.kind = new.kind ∧
      ∃ held : Raw, (held = .null ∨ ∃ old ∈ b.out, old.raw = held) ∧ e.raw = held.add new.raw := by
  rcases hseen : b.seen[new.id elementId]? with _ | i
  · rw [push_new hseen]
    refine ⟨_, mem_append_right _ (.head _), rfl, rfl, .null, .inl rfl, ?_⟩
    rcases new.raw <;> rfl
  · rw [push_again hseen]
    have hi := (h.indexed _ _).1 hseen
    rw [ids, getElem?_map, Option.map_eq_some_iff] at hi
    obtain ⟨e, he, hid⟩ := hi
    have hmem : e ∈ b.out := mem_iff_getElem?.2 ⟨i, he⟩
    refine ⟨e.again new, ?_, hid, hkind e hmem ((h.identified e hmem).symm.trans hid), e.raw,
      .inr ⟨e, hmem, rfl⟩, rfl⟩
    rw [mem_iff_getElem?]
    exact ⟨i, by rw [getElem?_modify, he]; simp⟩

theorem mem_ids_push (h : b.Good elementId) : new.id elementId ∈ (b.push elementId new).ids := by
  rcases hseen : b.seen[new.id elementId]? with _ | i
  · rw [push_new hseen]
    exact mem_map.2 ⟨_, mem_append_right _ (.head _), rfl⟩
  · exact grows_push.ids (mem_iff_getElem?.2 ⟨i, (h.indexed _ _).1 hseen⟩)

end Builder

/-! ## The walk -/

variable {elementId : String → String → String → String → String}

namespace Walk

/-- What holds of a walk: every id it names is an element's. -/
structure Good (elementId : String → String → String → String → String) (w : Walk) : Prop where
  builder : w.builder.Good elementId
  target : w.targetId ∈ w.builder.ids
  named : ∀ (key id : String), w.byValue[key]? = some id → id ∈ w.builder.ids

/-- What a part of the walk does: it keeps what holds, and every element there is. -/
structure Leads (elementId : String → String → String → String → String) (w w' : Walk) : Prop where
  good : w'.Good elementId
  grows : w.builder.Grows w'.builder
  target : w'.targetId = w.targetId

variable {R : Readers} {target : Target} {now : ℕ} {lineage : Lineage} {w w' : Walk}

theorem Good.leads (h : w.Good elementId) : w.Leads elementId w := ⟨h, .refl _, rfl⟩

theorem Leads.trans {w₁ w₂ w₃ : Walk} (h₁ : w₁.Leads elementId w₂) (h₂ : w₂.Leads elementId w₃) :
    w₁.Leads elementId w₃ :=
  ⟨h₂.good, h₁.grows.trans h₂.grows, h₂.target.trans h₁.target⟩

theorem Good.pushed (h : w.Good elementId) (new : Finding) {source : String}
    (hsource : new.source = some source) (hin : source ∈ w.builder.ids) :
    w.Leads elementId (w.pushed elementId new) where
  good := ⟨h.builder.push hsource hin, Builder.grows_push.ids h.target,
    fun key id hid ↦ Builder.grows_push.ids (h.named key id hid)⟩
  grows := Builder.grows_push
  target := rfl

/-- Parts of a walk, one after the other, that carry a state along. -/
theorem Leads.foldl {α β : Type} {v : β → Walk} {f : β → α → β} {xs : List α} {s : β}
    (hs : w.Leads elementId (v s))
    (hf : ∀ s, ∀ x ∈ xs, w.Leads elementId (v s) →
      (v s).Leads elementId (v (f s x))) :
    w.Leads elementId (v (xs.foldl f s)) := by
  induction xs generalizing s with
  | nil => exact hs
  | cons x rest ih =>
    exact ih (hs.trans (hf s x (.head _) hs)) fun s y hy ↦ hf s y (.tail _ hy)

theorem Leads.foldl_mem {α β : Type} {v : β → Walk} {f : β → α → β} {xs : List α} {s : β} {x : α}
    (hs : w.Leads elementId (v s))
    (hf : ∀ s, ∀ x ∈ xs, w.Leads elementId (v s) → (v s).Leads elementId (v (f s x))) (hx : x ∈ xs) :
    ∃ s', w.Leads elementId (v s') ∧ (v (f s' x)).Leads elementId (v (xs.foldl f s)) := by
  induction xs generalizing s with
  | nil => cases hx
  | cons y rest ih =>
    have hfirst := hf s y (.head _) hs
    have hrest : ∀ s, ∀ x ∈ rest, w.Leads elementId (v s) → (v s).Leads elementId (v (f s x)) :=
      fun s x hx ↦ hf s x (.tail _ hx)
    rcases mem_cons.1 hx with rfl | hx
    · refine ⟨s, hs, Leads.foldl (s := f s x) hfirst.good.leads fun s' z hz hs' ↦ ?_⟩
      exact hrest s' z hz (hs.trans (hfirst.trans hs'))
    · exact ih (hs.trans hfirst) hrest hx

/-! ## Every part of the walk -/

/-- Whatever names an entity's source, the source is an element. -/
theorem Good.sourceOf_mem (h : w.Good elementId) (entity : Entity) (evidence : Option Evidence) :
    w.sourceOf lineage entity evidence ∈ w.builder.ids := by
  unfold sourceOf
  rcases hfound : (evidence.bind _).or _ with _ | id
  · exact h.target
  · rcases Option.or_eq_some_iff.1 hfound with hparent | ⟨-, hlineage⟩
    · obtain ⟨record, -, hrecord⟩ := Option.bind_eq_some_iff.1 hparent
      obtain ⟨key, -, hkey⟩ := exists_of_findSome?_eq_some hrecord
      obtain ⟨value, -, hvalue⟩ := exists_of_findSome?_eq_some hkey
      exact h.named _ _ (Option.filter_eq_some_iff.1 hvalue).1
    · obtain ⟨parent, -, hid⟩ := Option.bind_eq_some_iff.1 hlineage
      exact h.named _ _ hid

theorem Good.getD_mem (h : w.Good elementId) (key : String) :
    (w.byValue[key]?).getD w.targetId ∈ w.builder.ids := by
  rcases hvalue : w.byValue[key]? with _ | id
  · exact h.target
  · exact h.named key id hvalue

theorem Good.place (h : w.Good elementId) (made : List Made) (p : Pending) :
    w.Leads elementId (place elementId R now lineage (w, made) p).1 := by
  have hpush := h.pushed (w.findingOf R now lineage p) rfl (h.sourceOf_mem p.entity _)
  refine ⟨⟨hpush.good.builder, hpush.good.target, fun key id hid ↦ ?_⟩, hpush.grows, hpush.target⟩
  simp only [Walk.place, TreeMap.getElem?_insertIfNew] at hid
  split at hid
  · rw [← Option.some.inj hid]
    exact Builder.mem_ids_push h.builder
  · exact hpush.good.named key id hid

variable {entity : Entity} {list : List Entity}

theorem Good.describe (h : w.Good elementId) {evidence : Evidence} {parent : String}
    (hparent : parent ∈ w.builder.ids) (said : Bool) (d : Descriptor) :
    w.Leads elementId (describe elementId R target entity evidence parent (w, said) d).1 := by
  unfold Walk.describe
  split
  · exact h.leads
  · exact h.pushed _ rfl hparent

theorem Good.describeRecord (h : w.Good elementId) {o : ℕ × String}
    (hparent : o.2 ∈ w.builder.ids) (said : Bool) :
    w.Leads elementId (describeRecord elementId R target now entity (w, said) o).1 := by
  unfold Walk.describeRecord
  split
  · exact h.leads
  · refine Leads.foldl (v := Prod.fst) h.leads fun s d _ hs ↦ ?_
    exact hs.good.describe (hs.grows.ids hparent) s.2 d

/-- The ids of the elements that the records of an entity made. -/
def MadeOf (w : Walk) (made : List Made) : Prop := ∀ m ∈ made, m.2.2 ∈ w.builder.ids

theorem Good.own_mem (h : w.Good elementId) {made : List Made} (hmade : w.MadeOf made) {index : ℕ}
    {o : ℕ × String} (ho : o ∈ w.own target index entity made) :
    o.2 ∈ w.builder.ids := by
  unfold own at ho
  split at ho
  · obtain ⟨_, -, rfl⟩ := mem_map.1 ho
    exact h.target
  · obtain ⟨m, hm, rfl⟩ := mem_map.1 ho
    exact hmade m (mem_filter.1 hm).1

theorem Good.descriptors (h : w.Good elementId) {made : List Made} (hmade : w.MadeOf made)
    (e : Entity × ℕ) : w.Leads elementId (descriptors elementId R target now made w e) := by
  have hrecords : w.Leads elementId ((w.own target e.2 e.1 made).foldl
      (Walk.describeRecord elementId R target now e.1) (w, false)).1 := by
    refine Leads.foldl (v := Prod.fst) h.leads fun s o ho hs ↦ ?_
    exact hs.good.describeRecord (hs.grows.ids (h.own_mem hmade ho)) s.2
  unfold Walk.descriptors
  simp only
  split
  · split
    · exact hrecords
    · exact hrecords.trans (hrecords.good.pushed _ rfl (hrecords.good.getD_mem _))
  · exact hrecords

theorem domainOf_source {element : DataElement} {new : Finding}
    (h : domainOf R target element = some new) : new.source = some element.id := by
  simp only [domainOf, Option.bind_eq_bind, Option.bind_eq_some_iff] at h
  obtain ⟨_, -, _, -, domain, -, h⟩ := h
  split at h
  · split at h
    · rw [← Option.some.inj h]
    · simp at h
  · rw [← Option.some.inj h]

theorem Good.domains (h : w.Good elementId) : w.Leads elementId (w.domains elementId R target) := by
  refine Leads.foldl (v := Prod.fst) h.leads fun s new hnew hs ↦ ?_
  obtain ⟨element, helement, hdomain⟩ := mem_filterMap.1 hnew
  unfold report
  split
  · exact hs.good.leads
  · exact hs.good.pushed _ (domainOf_source hdomain) (hs.grows.ids (mem_map_of_mem helement))

theorem firstReads_subset (read : List String) (elements : List DataElement) :
    ∀ e ∈ firstReads read elements, e ∈ elements := by
  induction elements generalizing read with
  | nil => exact nofun
  | cons element rest ih =>
    intro e he
    rw [firstReads] at he
    split at he
    · exact .tail _ (ih _ e he)
    · rcases mem_cons.1 he with rfl | he
      · exact .head _
      · exact .tail _ (ih _ e he)

theorem Good.countries (h : w.Good elementId) : w.Leads elementId (w.countries elementId R) := by
  refine Leads.foldl (v := id) h.leads fun s new hnew hs ↦ ?_
  obtain ⟨element, helement, hcountry⟩ := mem_flatMap.1 hnew
  obtain ⟨country, -, rfl⟩ := mem_map.1 hcountry
  have hout : element ∈ w.builder.out := (mem_filter.1 (firstReads_subset _ _ _ helement)).1
  exact hs.good.pushed _ rfl (hs.grows.ids (mem_map_of_mem hout))

/-! ## Every record -/

/-- An element of which `is` holds has the record whole. -/
def Keeps (w : Walk) (is : DataElement → Prop) (r : Raw) : Prop :=
  ∃ e ∈ w.builder.out, is e ∧ e.raw.Holds r

theorem Leads.keeps (h : w.Leads elementId w') {is : DataElement → Prop} {r : Raw} (hr : r ≠ .null)
    (his : ∀ e e' : DataElement, e.Extends e' → is e → is e') (hw : w.Keeps is r) : w'.Keeps is r := by
  obtain ⟨e, he, hise, hheld⟩ := hw
  obtain ⟨i, hi⟩ := mem_iff_getElem?.1 he
  obtain ⟨e', he', hext⟩ := h.grows i e hi
  exact ⟨e', mem_iff_getElem?.2 ⟨i, he'⟩, his e e' hext hise, hext.held r hr hheld⟩

/-- The hash tells elements' types apart. -/
def TellsTypes (elementId : String → String → String → String → String) : Prop :=
  ∀ {k d s m k' d' s' m'}, elementId k d s m = elementId k' d' s' m' → k = k'

theorem Good.place_keeps (h : w.Good elementId) (hid : TellsTypes elementId) (made : List Made)
    {p : Pending} {evidence : Evidence} (hevidence : p.entity.evidence[p.evidenceIndex]? = some evidence) :
    (Walk.place elementId R now lineage (w, made) p).1.Keeps (·.kind = p.kind)
      (rawOf evidence p.entity) := by
  obtain ⟨e, he, -, hkind, held, -, hraw⟩ := h.builder.exists_push (w.findingOf R now lineage p)
    fun e _ hsame ↦ hid hsame
  refine ⟨e, he, hkind, ?_⟩
  rw [hraw]
  simp only [findingOf, hevidence]
  exact held.add_holds evidence p.entity

theorem Good.entities (h : w.Good elementId) (list : List Entity) :
    w.Leads elementId (w.entities elementId R target now lineage list).1 := by
  refine Leads.foldl (v := Prod.fst) h.leads fun s p _ hs ↦ ?_
  exact hs.good.place s.2 p

/-- What was made is an element. -/
theorem Good.madeOf (h : w.Good elementId) (list : List Entity) :
    (w.entities elementId R target now lineage list).1.MadeOf
      (w.entities elementId R target now lineage list).2 := by
  suffices hall : ∀ (ps : List Pending) (s : Walk × List Made), s.1.Good elementId →
      s.1.MadeOf s.2 → (ps.foldl (Walk.place elementId R now lineage) s).1.MadeOf
        (ps.foldl (Walk.place elementId R now lineage) s).2 from
    hall _ _ h nofun
  intro ps
  induction ps with
  | nil => exact fun s _ hmade ↦ hmade
  | cons p rest ih =>
    intro s hs hmade
    refine ih _ (hs.place s.2 p).good fun m hm ↦ ?_
    rcases mem_append.1 hm with hold | hnew
    · have hplace : s.1.Leads elementId (Walk.place elementId R now lineage s p).1 := hs.place s.2 p
      exact hplace.grows.ids (hmade m hold)
    · rw [mem_singleton.1 hnew]
      exact Builder.mem_ids_push hs.builder

theorem mem_pending (hentity : entity ∈ list)
    (hnot : target.names entity = false) {i : ℕ} (hi : i < entity.evidence.length) :
    ∃ p ∈ pending target list, p.entity = entity ∧ p.evidenceIndex = i ∧
      p.kind = entityType entity target := by
  obtain ⟨index, hindex⟩ := mem_iff_getElem?.1 hentity
  refine ⟨⟨index, entity, i, entityType entity target⟩, ?_, rfl, rfl, rfl⟩
  rw [pending, mem_mergeSort, mem_flatMap]
  refine ⟨(entity, index), mem_zipIdx_iff_getElem?.2 hindex, ?_⟩
  simp only [hnot, Bool.false_eq_true, if_false, mem_map, mem_range]
  exact ⟨i, by omega, rfl⟩

theorem Good.entities_keep (h : w.Good elementId) (hid : TellsTypes elementId)
    (hentity : entity ∈ list) (hnot : target.names entity = false)
    {evidence : Evidence} (hevidence : evidence ∈ entity.evidence) :
    (w.entities elementId R target now lineage list).1.Keeps (·.kind = entityType entity target)
      (rawOf evidence entity) := by
  obtain ⟨i, hi⟩ := List.mem_iff_getElem?.1 hevidence
  obtain ⟨p, hp, rfl, rfl, hkind⟩ := mem_pending hentity hnot (List.getElem?_eq_some_iff.1 hi).1
  obtain ⟨s, hs, hrest⟩ := Leads.foldl_mem (v := Prod.fst) (f := Walk.place elementId R now lineage)
    (s := (w, [])) h.leads (fun s p _ hs ↦ hs.good.place s.2 p) hp
  refine hrest.keeps (by simp [rawOf]) (fun e e' hext he ↦ hext.kind.trans he) ?_
  rw [← hkind]
  exact hs.good.place_keeps hid s.2 hi

/-! ## The root and the target -/

theorem good_root (target : Target) (now : ℕ) :
    ((⟨[], ∅⟩ : Builder).push elementId (rootOf target now)).Good elementId := by
  rw [Builder.push_new TreeMap.getElem?_emptyc]
  refine ⟨Rooted.singleton _, fun id i ↦ ?_, fun e he ↦ ?_⟩
  · exact Builder.indexed_append (b := ⟨[], ∅⟩) (fun id i ↦ by simp [Builder.ids])
      TreeMap.getElem?_emptyc id i
  · rw [mem_singleton.1 he]

theorem mem_ids_root (target : Target) (now : ℕ) : (rootOf target now).id elementId ∈
    ((⟨[], ∅⟩ : Builder).push elementId (rootOf target now)).ids := by
  rw [Builder.push_new TreeMap.getElem?_emptyc]
  exact .head _

theorem good_new (R : Readers) (target : Target) (now : ℕ) (list : List Entity) :
    (Walk.new elementId R target now list).Good elementId := by
  have hroot : Builder.Good elementId _ := good_root target now
  have htarget : (targetOf elementId target list now).id elementId ∈
      (Walk.new elementId R target now list).builder.ids := Builder.mem_ids_push hroot
  refine ⟨hroot.push rfl (mem_ids_root target now), htarget, fun key id hid ↦ ?_⟩
  suffices hvalue : id = (targetOf elementId target list now).id elementId by
    rwa [hvalue]
  simp only [Walk.new] at hid
  split at hid
  · rw [TreeMap.getElem?_insert] at hid
    split at hid
    · exact (Option.some.inj hid).symm
    · rw [TreeMap.getElem?_insert] at hid
      split at hid
      · exact (Option.some.inj hid).symm
      · simp at hid
  · rw [TreeMap.getElem?_insert] at hid
    split at hid
    · exact (Option.some.inj hid).symm
    · simp at hid

/-- The records of the entities that are the target are the target's. -/
theorem new_keeps (R : Readers) (now : ℕ)
    (hentity : entity ∈ list) (hnames : target.names entity = true) {evidence : Evidence}
    (hevidence : evidence ∈ entity.evidence) (hid : TellsTypes elementId) :
    (Walk.new elementId R target now list).Keeps
      (fun e ↦ e.id = (targetOf elementId target list now).id elementId ∧ e.kind = target.kind)
      (rawOf evidence entity) := by
  have hroot : Builder.Good elementId _ := good_root target now
  obtain ⟨e, he, hidentity, hkind, held, hheld, hraw⟩ := hroot.exists_push
    (targetOf elementId target list now) fun e _ hsame ↦ hid hsame
  refine ⟨e, he, ⟨hidentity, hkind⟩, ?_⟩
  have hmem : rawOf evidence entity ∈ targetRaw target list :=
    mem_flatMap.2 ⟨entity, mem_filter.2 ⟨hentity, hnames⟩, mem_map_of_mem hevidence⟩
  -- the only element there is before has nothing to hold
  have hnull : held = .null := by
    rcases hheld with hnull | ⟨old, hold, rfl⟩
    · exact hnull
    · rw [Builder.push_new TreeMap.getElem?_emptyc] at hold
      rw [mem_singleton.1 hold]
      rfl
  rw [hraw, hnull, targetOf]
  rcases hrecords : targetRaw target list with _ | ⟨first, rest⟩
  · rw [hrecords] at hmem
    cases hmem
  · rw [hrecords] at hmem
    exact hmem

end Walk

/-! ## The elements of a scan -/

/-- The source that an element names. -/
def FoundFrom (out : List DataElement) (id source : String) : Prop :=
  ∃ e ∈ out, e.id = id ∧ e.source = some source

/-- Elements that are a tree: none twice, the root first and every other one after its source. -/
structure IsTree (out : List DataElement) : Prop where
  distinct : (out.map (·.id)).Nodup
  root : ∃ root, out.head? = some root ∧ root.kind = "ROOT" ∧ root.source = none ∧
    ∀ e ∈ out, Relation.ReflTransGen (FoundFrom out) e.id root.id
  earlier : ∀ (i : ℕ) (e : DataElement), 0 < i → out[i]? = some e →
    ∃ source, e.source = some source ∧ ∃ j < i, ∃ p, out[j]? = some p ∧ p.id = source

theorem Builder.Good.isTree {b : Builder} (h : b.Good elementId) {root : DataElement}
    (hroot : b.out[0]? = some root) (hkind : root.kind = "ROOT") (hsource : root.source = none) :
    IsTree b.out where
  distinct := by
    have hdistinct := h.rooted.distinct
    rwa [nodes_ids] at hdistinct
  root := by
    have hhead : b.nodes.head? = some (root.id, none) := by
      rw [head?_eq_getElem?, nodes, getElem?_map, hroot, Option.map_some, hsource]
    refine ⟨root, by rw [head?_eq_getElem?, hroot], hkind, hsource, fun e he ↦ ?_⟩
    have hmem : e.id ∈ b.nodes.map Prod.fst := by
      rw [nodes_ids]
      exact mem_map_of_mem he
    refine (h.rooted.reaches hhead hmem).lift id fun id source hparent ↦ ?_
    obtain ⟨e', he', hnode⟩ := mem_map.1 hparent
    exact ⟨e', he', (Prod.mk.inj hnode).1, (Prod.mk.inj hnode).2⟩
  earlier := by
    intro i e hi he
    obtain ⟨source, hsource, j, hj, above, habove⟩ := h.rooted.earlier i e.id e.source hi (by
      rw [nodes, getElem?_map, he, Option.map_some])
    rw [nodes, getElem?_map, Option.map_eq_some_iff] at habove
    obtain ⟨p, hp, hnode⟩ := habove
    exact ⟨source, hsource, j, hj, p, hp, (Prod.mk.inj hnode).1⟩

/-- **The elements of a scan are a tree, and every record is kept whole**: by the target's element
where the entity is the target, and by one of the entity's type where it is not.  Of the hash it is
only used that it tells types apart. -/
theorem elementsWithLineage_tree (R : Readers)
    (elementId : String → String → String → String → String) (hid : Walk.TellsTypes elementId)
    (target : Target) (entities : List Entity) (lineage : Lineage) (now : ℕ) :
    IsTree (elementsWithLineage elementId R target entities lineage now) ∧
    ∀ entity ∈ entities, ∀ evidence ∈ entity.evidence,
      ∃ e ∈ elementsWithLineage elementId R target entities lineage now,
        e.raw.Holds (rawOf evidence entity) ∧
        if target.names entity = true then
          e.id = (targetOf elementId target entities now).id elementId ∧ e.kind = target.kind
        else e.kind = entityType entity target := by
  have hnew : (Walk.new elementId R target now entities).Good elementId :=
    Walk.good_new R target now entities
  have hmade : ((Walk.new elementId R target now entities).entities elementId R target now lineage
      entities).1.MadeOf _ := hnew.madeOf entities
  have hplaced : Walk.Leads elementId _ ((Walk.new elementId R target now entities).entities elementId
      R target now lineage entities).1 := hnew.entities entities
  set placed := (Walk.new elementId R target now entities).entities elementId R target now lineage
    entities
  have hdescribed : placed.1.Leads elementId
      (entities.zipIdx.foldl (Walk.descriptors elementId R target now placed.2) placed.1) :=
    Walk.Leads.foldl (v := id) hplaced.good.leads fun w e _ hw ↦
      hw.good.descriptors (fun m hm ↦ hw.grows.ids (hmade m hm)) e
  have hdomains : placed.1.Leads elementId (Walk.domains elementId R target _) :=
    hdescribed.trans hdescribed.good.domains
  have hrest : placed.1.Leads elementId (Walk.countries elementId R _) :=
    hdomains.trans hdomains.good.countries
  have hall := hplaced.trans hrest
  refine ⟨?_, fun entity hentity evidence hevidence ↦ ?_⟩
  · -- the root stays the first
    have hroot : ∃ root, (Walk.new elementId R target now entities).builder.out[0]? = some root ∧
        root.kind = "ROOT" ∧ root.source = none := by
      have hgrows : ((⟨[], ∅⟩ : Builder).push elementId (rootOf target now)).Grows
          (Walk.new elementId R target now entities).builder := Builder.grows_push
      obtain ⟨root, hroot, hext⟩ := hgrows 0
        { rootOf target now with id := (rootOf target now).id elementId } (by
          rw [Builder.push_new TreeMap.getElem?_emptyc]
          rfl)
      exact ⟨root, hroot, hext.kind, hext.source⟩
    obtain ⟨root, hroot, hkind, hsource⟩ := hroot
    obtain ⟨root', hroot', hext⟩ := hall.grows 0 root hroot
    exact hall.good.builder.isTree hroot' (hext.kind.trans hkind) (hext.source.trans hsource)
  · have hnull : rawOf evidence entity ≠ .null := by simp [rawOf]
    rcases hnames : target.names entity with _ | _
    · obtain ⟨e, he, hkind, hheld⟩ := hrest.keeps hnull (fun e e' hext he ↦ hext.kind.trans he)
        (hnew.entities_keep hid hentity hnames hevidence)
      exact ⟨e, he, hheld, by rwa [if_neg (by simp)]⟩
    · obtain ⟨e, he, his, hheld⟩ := hall.keeps hnull
        (fun e e' hext he ↦ ⟨hext.id.trans he.1, hext.kind.trans he.2⟩)
        (Walk.new_keeps R now hentity hnames hevidence hid)
      exact ⟨e, he, hheld, by rwa [if_pos rfl]⟩

/-! ## An address found from a handle -/

namespace Sample

/-- The readers, of texts that none of them reads. -/
def readers : Readers where
  lib := Canonical.Library.plain
  parseF64 := fun _ ↦ none
  percent := fun _ ↦ 80
  parseTimestamp := fun _ ↦ none
  toLowercase := id
  canonicalCoordinates := fun _ ↦ none
  ofElement := fun _ _ ↦ []

def ada : Target := ⟨"ada", "USERNAME"⟩

def address : Entity where
  uid := "u1"
  kind := .email
  value := "ada@example.org"
  rawValue := "ada@example.org"
  confidence := F64.ofRat (4 / 5)
  evidence := [{
    provenance := { source := "gravatar" }
    attributes := (∅ : TreeMap String String).insert "username" "Ada" }]

/-- The hashes of what is hashed here. -/
def known : List ((String × String × String × String) × String) :=
  [(("ROOT", "ada", "", "huntsman"), "330e57ede3dc5d1d"),
    (("USERNAME", "ada", "330e57ede3dc5d1d", "huntsman"), "9c14effd302921a3"),
    (("EMAILADDR", "ada@example.org", "9c14effd302921a3", "gravatar"), "06ba99bda71a0946")]

def hash (kind data source module : String) : String :=
  (known.lookup (kind, data, source, module)).getD ("?" ++ kind)

theorem mem_of_lookup {parts : String × String × String × String} {id : String}
    (h : known.lookup parts = some id) : (parts, id) ∈ known := by
  obtain ⟨before, after, hknown, -⟩ := lookup_eq_some_iff.1 h
  rw [hknown]
  exact mem_append_right _ (.head _)

theorem tellsTypes : Walk.TellsTypes hash := by
  have hhead : ∀ x ∈ known, x.2.toList.head? ≠ some '?' := by decide
  have hmark : ∀ kind, ∀ x ∈ known, x.2 ≠ "?" ++ kind := by
    intro kind x hx h
    refine hhead x hx ?_
    rw [h, String.toList_append]
    rfl
  have htypes : ∀ x ∈ known, ∀ y ∈ known, x.2 = y.2 → x.1.1 = y.1.1 := by decide
  intro k d s m k' d' s' m' h
  unfold hash at h
  rcases hx : known.lookup (k, d, s, m) with _ | x <;>
    rcases hy : known.lookup (k', d', s', m') with _ | y <;>
    rw [hx, hy] at h
  · exact (String.append_right_inj _).1 h
  · exact absurd h.symm (hmark k _ (mem_of_lookup hy))
  · exact absurd h (hmark k' _ (mem_of_lookup hx))
  · exact htypes _ (mem_of_lookup hx) _ (mem_of_lookup hy) h

end Sample

/-- The three elements are a tree. -/
theorem elementsWithLineage_ada :
    IsTree (elementsWithLineage Sample.hash Sample.readers Sample.ada [Sample.address] ∅ 0) ∧
    ∀ entity ∈ [Sample.address], ∀ evidence ∈ entity.evidence,
      ∃ e ∈ elementsWithLineage Sample.hash Sample.readers Sample.ada [Sample.address] ∅ 0,
        e.raw.Holds (rawOf evidence entity) ∧
        if Sample.ada.names entity = true then
          e.id = (targetOf Sample.hash Sample.ada [Sample.address] 0).id Sample.hash ∧
            e.kind = Sample.ada.kind
        else e.kind = entityType entity Sample.ada :=
  elementsWithLineage_tree Sample.readers Sample.hash Sample.tellsTypes Sample.ada
    [Sample.address] ∅ 0

end Huntsman.Elements

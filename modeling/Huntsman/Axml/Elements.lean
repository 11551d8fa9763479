import Huntsman.Axml.Manifest

/-!
# The components of a manifest

A manifest is a tree of elements.  What it declares about its components is in the tree: which of
them other apps can reach (`Elem.reach`), and their intent filters (`Elem.filterDefs`).

The reader sees the tree as the starts and ends of its elements (`Elem.read`), and knows one
component and one intent filter that are open.  `Seen` says what it knows and what it has listed.
Inside a component every intent filter is closed before the next one starts, unless it is around it:
one that holds another is lost, so that those that are listed are the innermost ones.
-/

set_option autoImplicit false

namespace Huntsman.Axml

open List

/-- An element. -/
inductive Elem where
  | node (name : String) (attributes : List Attribute) (children : List Elem)

namespace Elem

def name : Elem → String
  | node name _ _ => name

def attributes : Elem → List Attribute
  | node _ attributes _ => attributes

def children : Elem → List Elem
  | node _ _ children => children

mutual

/-- An element and those in it, in document order. -/
def within : Elem → List Elem
  | node name attributes children => node name attributes children :: withinAll children

def withinAll : List Elem → List Elem
  | [] => []
  | e :: es => e.within ++ withinAll es

end

/-- The elements in an element, in document order. -/
def descendants (e : Elem) : List Elem := withinAll e.children

/-! ## What a manifest declares -/

def isFilter (e : Elem) : Bool := e.name == "intent-filter"

def holdsFilter (e : Elem) : Bool := e.descendants.any isFilter

/-- An intent filter that has no other in it. -/
def innermost (e : Elem) : Bool := e.isFilter && !e.holdsFilter

/-- What those of one name have as an attribute. -/
def declaredIn (es : List Elem) (kind key : String) : List String :=
  (es.filter (·.name = kind)).filterMap (value ·.attributes key)

/-- What is directly in an intent filter. -/
def filterState (filter : Elem) : IntentFilterState where
  actions := declaredIn filter.children "action" "name"
  categories := declaredIn filter.children "category" "name"
  schemes := (declaredIn filter.children "data" "scheme").map Text.toAsciiLowercase
  hosts := (declaredIn filter.children "data" "host").map Text.toAsciiLowercase

/-- How a component of an application is reachable from other apps, if it is. -/
def reach (application component : Elem) : Option Component :=
  let listed (exposure : Exposure) : Component :=
    ⟨component.name, (value component.attributes "name").getD "", exposure⟩
  if flag component.attributes "enabled" = some false ∨
      flag application.attributes "enabled" = some false then none
  else if flag component.attributes "exported" = some true then some (listed .exported)
  else if flag component.attributes "exported" = none ∧ component.name ≠ "provider" ∧
      component.holdsFilter then some (listed .implicitByIntentFilter)
  else none

/-- The components of an application. -/
def components (application : Elem) : List Elem :=
  application.children.filter (·.name ∈ COMPONENTS)

end Elem

/-! ## What the reader sees -/

/-- The end of an element in `parent`. -/
def Reader.close (r : Reader) (element : String) (parent : Option String) : Reader :=
  if element = "intent-filter" then r.closeIntentFilter
  else if element ∈ COMPONENTS ∧ parent = some "application" then r.closeComponent
  else r

mutual

/-- An element in `parent`, with those in it. -/
def Elem.read (parent : Option String) : Elem → Reader → Reader
  | .node name attributes children, r =>
    (Elem.readAll (some name) children (r.start name parent attributes)).close name parent

def Elem.readAll (parent : Option String) : List Elem → Reader → Reader
  | [], r => r
  | e :: es, r => Elem.readAll parent es (e.read parent r)

end

/-! ## What the reader knows -/

/-- What the manifest lists: as many as may be of the components that are reachable and of the
intent filters, and how many more there are. -/
structure Listed (m : Manifest) (components : List Component) (filters : List IntentFilterDef) :
    Prop where
  reachable : m.reachableComponents = components.take maxListed
  reachableOmitted : m.reachableComponentsOmitted = components.length - maxListed
  intentFilters : m.intentFilters = filters.take maxListed
  intentFiltersOmitted : m.intentFiltersOmitted = filters.length - maxListed

/-- What the reader knows of a component and an intent filter that are open and of the application,
and what it has listed. -/
structure Seen (r : Reader) (opened : Option Open) (filter : Option IntentFilterState)
    (enabled : Option Bool) (components : List Component) (filters : List IntentFilterDef) :
    Prop where
  opened : r.opened = opened
  filter : r.intentFilter = filter
  enabled : r.applicationEnabled = enabled
  listed : Listed r.manifest components filters

/-- What an element directly in an intent filter adds to it. -/
def IntentFilterState.add (filter : IntentFilterState) (element : String)
    (attributes : List Attribute) : IntentFilterState :=
  if element = "data" then
    { filter with
      schemes := filter.schemes ++ ((value attributes "scheme").map Text.toAsciiLowercase).toList
      hosts := filter.hosts ++ ((value attributes "host").map Text.toAsciiLowercase).toList }
  else if element = "action" then
    { filter with actions := filter.actions ++ (value attributes "name").toList }
  else if element = "category" then
    { filter with categories := filter.categories ++ (value attributes "name").toList }
  else filter

/-- What the start of an element makes of the intent filter that is open. -/
def filterAfter (filter : Option IntentFilterState) (element : String) (parent : Option String)
    (attributes : List Attribute) : Option IntentFilterState :=
  if element = "intent-filter" then some {}
  else if parent = some "intent-filter" then filter.map (·.add element attributes)
  else filter

/-- What a component is known to be, when an intent filter may have been found in it. -/
def openedAfter (opened : Option Open) (found : Bool) : Option Open :=
  opened.map fun o ↦ { o with filtered := o.filtered || found }

variable {r r' : Reader} {opened opened' : Option Open} {filter filter' : Option IntentFilterState}
  {enabled : Option Bool} {components : List Component} {filters : List IntentFilterDef}
  {element : String} {parent : Option String} {attributes : List Attribute} {m m' : Manifest}

theorem Listed.of_same (h : Listed m components filters)
    (hreachable : m'.reachableComponents = m.reachableComponents)
    (hreachableOmitted : m'.reachableComponentsOmitted = m.reachableComponentsOmitted)
    (hfilters : m'.intentFilters = m.intentFilters)
    (hfiltersOmitted : m'.intentFiltersOmitted = m.intentFiltersOmitted) :
    Listed m' components filters :=
  ⟨hreachable.trans h.reachable, hreachableOmitted.trans h.reachableOmitted,
    hfilters.trans h.intentFilters, hfiltersOmitted.trans h.intentFiltersOmitted⟩

theorem openedAfter_false (opened : Option Open) : openedAfter opened false = opened := by
  rcases opened with _ | o
  · rfl
  · rw [openedAfter, Option.map_some, Bool.or_false]

theorem openedAfter_or (opened : Option Open) (found found' : Bool) :
    openedAfter (openedAfter opened found) found' = openedAfter opened (found || found') := by
  rcases opened with _ | o
  · rfl
  · simp only [openedAfter, Option.map_some, Bool.or_assoc]

/-- An element that is none of those that are read as part of an intent filter. -/
theorem Seen.other (h : Seen r opened filter enabled components filters)
    (hopened : r'.opened = r.opened) (hfilter : r'.intentFilter = r.intentFilter)
    (henabled : r'.applicationEnabled = r.applicationEnabled)
    (hlisted : Listed r'.manifest components filters) (hne : element ≠ "intent-filter")
    (hafter : filterAfter filter element parent attributes = filter) :
    Seen r' (openedAfter opened (element == "intent-filter"))
      (filterAfter filter element parent attributes) enabled components filters := by
  rw [beq_eq_false_iff_ne.2 hne, openedAfter_false, hafter]
  exact ⟨hopened.trans h.opened, hfilter.trans h.filter, henabled.trans h.enabled, hlisted⟩

theorem filterAfter_other (hfilter : element ≠ "intent-filter")
    (h : parent = some "intent-filter" →
      element ≠ "data" ∧ element ≠ "action" ∧ element ≠ "category") :
    filterAfter filter element parent attributes = filter := by
  rw [filterAfter, if_neg hfilter]
  split_ifs with hparent
  · obtain ⟨hdata, haction, hcategory⟩ := h hparent
    have hid : (fun f : IntentFilterState ↦ f.add element attributes) = id := by
      funext f
      rw [IntentFilterState.add, if_neg hdata, if_neg haction, if_neg hcategory]
      rfl
    rw [hid, Option.map_id_fun]
    rfl
  · rfl

theorem recordFilterData_seen (h : Seen r opened filter enabled components filters) :
    Seen (r.recordFilterData attributes) opened (filter.map (·.add "data" attributes)) enabled
      components filters := by
  obtain ⟨hopened, hfilter, henabled, hlisted⟩ := h
  subst hopened hfilter henabled
  rw [Reader.recordFilterData]
  rcases hscheme : value attributes "scheme" with _ | scheme <;>
    rcases hhost : value attributes "host" with _ | host <;>
    refine ⟨rfl, ?_, rfl, hlisted.of_same rfl rfl rfl rfl⟩ <;>
    rcases r.intentFilter with _ | f <;>
    simp [IntentFilterState.add, hscheme, hhost]

/-- **What the start of an element changes**, if it is none of an application or a component. -/
theorem start_seen (attributes : List Attribute)
    (h : Seen r opened filter enabled components filters) (happlication : element ≠ "application")
    (hcomponent : ¬(element ∈ COMPONENTS ∧ parent = some "application")) :
    Seen (r.start element parent attributes) (openedAfter opened (element == "intent-filter"))
      (filterAfter filter element parent attributes) enabled components filters := by
  rw [Reader.start]
  simp only [if_neg hcomponent, if_neg happlication]
  split_ifs with hdata hmanifest hsdk hpermission hfilter haction hcategory
  · obtain ⟨rfl, rfl⟩ := hdata
    rw [filterAfter, if_neg (by decide), if_pos rfl]
    exact (openedAfter_false opened).symm ▸ recordFilterData_seen h
  · subst hmanifest
    exact h.other rfl rfl rfl (h.listed.of_same rfl rfl rfl rfl) (by decide)
      (filterAfter_other (by decide) fun _ ↦ by decide)
  · subst hsdk
    exact h.other rfl rfl rfl (h.listed.of_same rfl rfl rfl rfl) (by decide)
      (filterAfter_other (by decide) fun _ ↦ by decide)
  · have hne : element ≠ "intent-filter" ∧ element ≠ "data" ∧ element ≠ "action" ∧
        element ≠ "category" := by
      rcases hpermission with rfl | rfl <;> decide
    have hafter : filterAfter filter element parent attributes = filter :=
      filterAfter_other hne.1 fun _ ↦ hne.2
    rcases value attributes "name" with _ | name
    · exact h.other rfl rfl rfl h.listed hne.1 hafter
    · exact h.other rfl rfl rfl (h.listed.of_same rfl rfl rfl rfl) hne.1 hafter
  · subst hfilter
    refine ⟨?_, ?_, h.enabled, ?_⟩
    · rw [Reader.openIntentFilter, h.opened, openedAfter]
      simp only [beq_self_eq_true, Bool.or_true]
    · rw [filterAfter, if_pos rfl]
      rfl
    · show Listed (ite _ _ _) _ _
      split_ifs
      · exact h.listed.of_same rfl rfl rfl rfl
      · exact h.listed
  · obtain ⟨rfl, rfl⟩ := haction
    have hne : ("action" == "intent-filter") = false := by decide
    rw [hne, openedAfter_false, filterAfter, if_neg (by decide), if_pos rfl]
    exact ⟨h.opened, by rw [← h.filter]; rfl, h.enabled, h.listed⟩
  · obtain ⟨rfl, rfl⟩ := hcategory
    have hne : ("category" == "intent-filter") = false := by decide
    rw [hne, openedAfter_false, filterAfter, if_neg (by decide), if_pos rfl]
    exact ⟨h.opened, by rw [← h.filter]; rfl, h.enabled, h.listed⟩
  · refine h.other rfl rfl rfl h.listed hfilter (filterAfter_other hfilter fun hparent ↦ ?_)
    exact ⟨fun hd ↦ hdata ⟨hd, hparent⟩, fun ha ↦ haction ⟨ha, hparent⟩,
      fun hc ↦ hcategory ⟨hc, hparent⟩⟩

/-! ## Ends of elements -/

/-- A list that is shown up to a limit, with one more in it. -/
theorem take_concat_of_lt {α : Type} {l : List α} {x : α} {n : ℕ} (h : (l.take n).length < n) :
    (l ++ [x]).take n = l.take n ++ [x] ∧ (l ++ [x]).length - n = l.length - n := by
  rw [length_take] at h
  rw [length_append, length_singleton, take_of_length_le (by simp; omega),
    take_of_length_le (by omega)]
  exact ⟨rfl, by omega⟩

theorem take_concat_of_le {α : Type} {l : List α} {x : α} {n : ℕ} (h : ¬(l.take n).length < n) :
    (l ++ [x]).take n = l.take n ∧ (l ++ [x]).length - n = l.length - n + 1 := by
  rw [length_take] at h
  rw [take_append_of_le_length (by omega), length_append, length_singleton]
  exact ⟨rfl, by omega⟩

/-- What is listed of an intent filter of a component. -/
def filterOf (o : Open) (filter : IntentFilterState) : IntentFilterDef where
  component := o.name
  componentKind := if o.kind = "activity-alias" then "activity" else o.kind
  actions := filter.actions
  categories := filter.categories
  schemes := filter.schemes
  hosts := filter.hosts

theorem closeIntentFilter_seen (h : Seen r opened filter enabled components filters) :
    Seen r.closeIntentFilter opened none enabled components
      (filters ++ (opened.bind fun o ↦ filter.map (filterOf o)).toList) := by
  obtain ⟨hopened, hfilter, henabled, hlisted⟩ := h
  subst hopened hfilter henabled
  rw [Reader.closeIntentFilter]
  rcases r.opened with _ | o
  · rw [Option.bind_none, Option.toList_none, append_nil]
    rcases r.intentFilter with _ | f
    · exact ⟨rfl, rfl, rfl, hlisted⟩
    · exact ⟨rfl, rfl, rfl, hlisted⟩
  rcases r.intentFilter with _ | f
  · rw [Option.bind_some, Option.map_none, Option.toList_none, append_nil]
    exact ⟨rfl, rfl, rfl, hlisted⟩
  refine ⟨rfl, rfl, rfl, ?_⟩
  show Listed (ite _ _ _) components (filters ++ [filterOf o f])
  obtain ⟨hreachable, hreachableOmitted, hfilters, hfiltersOmitted⟩ := hlisted
  rw [hfilters, hfiltersOmitted]
  by_cases hroom : (filters.take maxListed).length < maxListed
  · obtain ⟨htake, hlength⟩ := take_concat_of_lt (x := filterOf o f) hroom
    rw [if_pos hroom]
    exact ⟨hreachable, hreachableOmitted, htake.symm, hlength.symm⟩
  · obtain ⟨htake, hlength⟩ := take_concat_of_le (x := filterOf o f) hroom
    rw [if_neg hroom]
    exact ⟨hreachable, hreachableOmitted, htake.symm, hlength.symm⟩

namespace Elem

/-- An intent filter, in an element or itself. -/
def found (e : Elem) : Bool := e.within.any isFilter

def foundAll (es : List Elem) : Bool := (withinAll es).any isFilter

theorem found_node (name : String) (attributes : List Attribute) (children : List Elem) :
    found (node name attributes children) = (name == "intent-filter" || foundAll children) := by
  rw [found, within, any_cons]
  rfl

theorem name_ne_of_found {e : Elem} (h : e.found = false) : e.name ≠ "intent-filter" := by
  rcases e with ⟨name, attributes, children⟩
  rw [found_node, Bool.or_eq_false_iff] at h
  exact beq_eq_false_iff_ne.1 h.1

theorem foundAll_cons (e : Elem) (es : List Elem) :
    foundAll (e :: es) = (e.found || foundAll es) := by
  rw [foundAll, withinAll, any_append]
  rfl

theorem declaredIn_cons (e : Elem) (es : List Elem) (kind key : String) :
    declaredIn (e :: es) kind key =
      (if e.name = kind then (value e.attributes key).toList else []) ++
        declaredIn es kind key := by
  rw [declaredIn, filter_cons]
  by_cases hname : e.name = kind
  · rw [if_pos (decide_eq_true hname), if_pos hname, filterMap_cons]
    rcases value e.attributes key with _ | v <;> rfl
  · rw [if_neg (by simpa using hname), if_neg hname]
    rfl

/-- **What the elements in an intent filter add to it.** -/
theorem foldl_add (es : List Elem) (filter : IntentFilterState) :
    es.foldl (fun filter e ↦ filter.add e.name e.attributes) filter =
      { actions := filter.actions ++ declaredIn es "action" "name"
        categories := filter.categories ++ declaredIn es "category" "name"
        schemes := filter.schemes ++ (declaredIn es "data" "scheme").map Text.toAsciiLowercase
        hosts := filter.hosts ++ (declaredIn es "data" "host").map Text.toAsciiLowercase } := by
  induction es generalizing filter with
  | nil => simp [declaredIn]
  | cons e es ih =>
    rw [foldl_cons, ih]
    simp only [IntentFilterState.add, declaredIn_cons]
    by_cases hdata : e.name = "data"
    · simp [hdata, Option.toList_map]
    by_cases haction : e.name = "action"
    · simp [haction]
    by_cases hcategory : e.name = "category"
    · simp [hcategory]
    · simp [hdata, haction, hcategory]

/-- An intent filter that is read has what is directly in it. -/
theorem foldl_filterAfter_filter (es : List Elem) (hes : foundAll es = false)
    (filter : IntentFilterState) :
    es.foldl (fun filter e ↦ filterAfter filter e.name (some "intent-filter") e.attributes)
      (some filter) = some (es.foldl (fun filter e ↦ filter.add e.name e.attributes) filter) := by
  induction es generalizing filter with
  | nil => rfl
  | cons e es ih =>
    rw [foundAll_cons, Bool.or_eq_false_iff] at hes
    have hname : e.name ≠ "intent-filter" := name_ne_of_found hes.1
    rw [foldl_cons, foldl_cons, filterAfter, if_neg hname, if_pos rfl, Option.map_some]
    exact ih hes.2 _

theorem foldl_filterAfter_none (es : List Elem) (hes : foundAll es = false) :
    es.foldl (fun filter e ↦ filterAfter filter e.name parent e.attributes) none = none := by
  induction es with
  | nil => rfl
  | cons e es ih =>
    rw [foundAll_cons, Bool.or_eq_false_iff] at hes
    rw [foldl_cons, filterAfter, if_neg (name_ne_of_found hes.1), Option.map_none, ite_self]
    exact ih hes.2

theorem foldl_filterAfter_other (es : List Elem) (hes : foundAll es = false)
    (hparent : parent ≠ some "intent-filter") (filter : Option IntentFilterState) :
    es.foldl (fun filter e ↦ filterAfter filter e.name parent e.attributes) filter = filter := by
  induction es with
  | nil => rfl
  | cons e es ih =>
    rw [foundAll_cons, Bool.or_eq_false_iff] at hes
    rw [foldl_cons, filterAfter_other (name_ne_of_found hes.1) fun h ↦ absurd h hparent]
    exact ih hes.2

/-- What is listed of the intent filters that are found in a component. -/
def listedIn (opened : Option Open) (es : List Elem) : List IntentFilterDef :=
  (es.filter innermost).flatMap fun f ↦ (opened.map fun o ↦ filterOf o f.filterState).toList

theorem listedIn_openedAfter (opened : Option Open) (found : Bool) (es : List Elem) :
    listedIn (openedAfter opened found) es = listedIn opened es := by
  rcases opened with _ | o <;> rfl

theorem listedIn_append (opened : Option Open) (es es' : List Elem) :
    listedIn opened (es ++ es') = listedIn opened es ++ listedIn opened es' := by
  rw [listedIn, filter_append, flatMap_append]
  rfl

theorem listedIn_none {es : List Elem} (h : foundAll es = false) :
    listedIn opened (withinAll es) = [] := by
  have hempty : (withinAll es).filter innermost = [] := by
    refine filter_eq_nil_iff.2 fun e he hinner ↦ ?_
    exact any_eq_false.1 h e he (Bool.and_eq_true_iff.1 hinner).1
  rw [listedIn, hempty]
  rfl

/-- An intent filter is listed if no other is in it, else those in it are. -/
theorem listedIn_node (opened : Option Open) (name : String) (attributes : List Attribute)
    (children : List Elem) : listedIn opened (node name attributes children).within =
      if name = "intent-filter" ∧ foundAll children = false then
        (opened.map fun o ↦ filterOf o (node name attributes children).filterState).toList
      else listedIn opened (withinAll children) := by
  have hnode : innermost (node name attributes children) =
      (name == "intent-filter" && !foundAll children) := rfl
  split_ifs with h
  · have hempty : listedIn opened (withinAll children) = [] := listedIn_none h.2
    rw [listedIn] at hempty
    rw [within, listedIn, filter_cons_of_pos (by rw [hnode, h.2, h.1]; rfl), flatMap_cons,
      hempty, append_nil]
  · rw [within, listedIn, filter_cons_of_neg]
    · rfl
    · rw [hnode, Bool.and_eq_true, beq_iff_eq, Bool.not_eq_true']
      exact h

mutual

/-- **What the reader makes of an element**, wherever it is, if it is none of an application or a
component and has no application in it. -/
theorem read_seen (e : Elem) {r : Reader} {opened : Option Open} {filter : Option IntentFilterState}
    {filters : List IntentFilterDef} {parent : Option String}
    (hcomponent : ¬(e.name ∈ COMPONENTS ∧ parent = some "application"))
    (happlication : ∀ f ∈ e.within, f.name ≠ "application")
    (h : Seen r opened filter enabled components filters) :
    Seen (e.read parent r) (openedAfter opened e.found)
      (if e.found then none else filterAfter filter e.name parent e.attributes) enabled components
      (filters ++ listedIn opened e.within) := by
  match e with
  | node name attributes children =>
    have hname : name ≠ "application" := happlication _ (.head _)
    have hcomponent : ¬(name ∈ COMPONENTS ∧ parent = some "application") := hcomponent
    have hstart := start_seen attributes h hname hcomponent
    have hparent : some name ≠ some "application" := fun h ↦ hname (Option.some.inj h)
    have hchildren := readAll_seen children hparent
      (fun f hf ↦ happlication f (.tail _ hf)) hstart
    rw [openedAfter_or, listedIn_openedAfter] at hchildren
    rw [read, Reader.close, found_node]
    by_cases hfilter : name = "intent-filter"
    · subst hfilter
      have hclosed := closeIntentFilter_seen hchildren
      have hlisted : filters ++ listedIn opened (withinAll children) ++
          ((openedAfter opened ("intent-filter" == "intent-filter" || foundAll children)).bind fun o ↦
            (if foundAll children then none
              else children.foldl (fun filter e ↦
                filterAfter filter e.name (some "intent-filter") e.attributes)
                (filterAfter filter "intent-filter" parent attributes)).map (filterOf o)).toList =
          filters ++ listedIn opened (node "intent-filter" attributes children).within := by
        rw [append_assoc, listedIn_node]
        rcases hall : foundAll children with _ | _
        · have hsome : filterAfter filter "intent-filter" parent attributes = some {} := if_pos rfl
          rw [if_neg Bool.false_ne_true, if_pos ⟨rfl, rfl⟩, hsome,
            foldl_filterAfter_filter children hall, foldl_add, listedIn_none hall]
          rcases opened with _ | o <;> rfl
        · have hother : ¬("intent-filter" = "intent-filter" ∧ true = false) := by decide
          rw [if_pos rfl, if_neg hother]
          rcases opened with _ | o <;> exact congrArg (filters ++ ·) (append_nil _)
      rw [hlisted] at hclosed
      rw [if_pos rfl, if_pos (by rfl)]
      exact hclosed
    · have hne : (name == "intent-filter") = false := beq_eq_false_iff_ne.2 hfilter
      have hparent : some name ≠ some "intent-filter" := fun h ↦ hfilter (Option.some.inj h)
      have hother : ¬(name = "intent-filter" ∧ foundAll children = false) := fun h ↦ hfilter h.1
      rw [if_neg hfilter, if_neg hcomponent, listedIn_node, if_neg hother]
      rw [hne, Bool.false_or] at hchildren ⊢
      rcases hall : foundAll children with _ | _
      · rw [hall, foldl_filterAfter_other children hall hparent] at hchildren
        exact hchildren
      · rw [hall] at hchildren
        exact hchildren

theorem readAll_seen (es : List Elem) {r : Reader} {opened : Option Open}
    {filter : Option IntentFilterState} {filters : List IntentFilterDef} {parent : Option String}
    (hparent : parent ≠ some "application")
    (happlication : ∀ f ∈ withinAll es, f.name ≠ "application")
    (h : Seen r opened filter enabled components filters) :
    Seen (readAll parent es r) (openedAfter opened (foundAll es))
      (if foundAll es then none
        else es.foldl (fun filter e ↦ filterAfter filter e.name parent e.attributes) filter)
      enabled components (filters ++ listedIn opened (withinAll es)) := by
  match es with
  | [] =>
    have hnone : foundAll [] = false := rfl
    have hempty : listedIn opened (withinAll []) = [] := rfl
    rw [readAll, hnone, openedAfter_false, if_neg Bool.false_ne_true, hempty, append_nil]
    exact h
  | e :: es =>
    have houtside : ¬(e.name ∈ COMPONENTS ∧ parent = some "application") := fun h ↦ hparent h.2
    have hfirst := read_seen e houtside (fun f hf ↦ happlication f (mem_append_left _ hf)) h
    have hrest := readAll_seen es hparent
      (fun f hf ↦ happlication f (mem_append_right _ hf)) hfirst
    rw [openedAfter_or, listedIn_openedAfter, append_assoc, ← listedIn_append] at hrest
    rw [readAll, foundAll_cons, withinAll]
    rcases hall : foundAll es with _ | _
    · rw [hall, if_neg Bool.false_ne_true] at hrest
      rw [Bool.or_false] at hrest ⊢
      rcases hfound : e.found with _ | _
      · rwa [hfound] at hrest
      · rwa [hfound, if_pos rfl, foldl_filterAfter_none es hall] at hrest
    · rw [hall, if_pos rfl] at hrest
      rwa [Bool.or_true, if_pos rfl] at *

end

/-! ## Components -/

theorem readAll_append (parent : Option String) (es es' : List Elem) (r : Reader) :
    readAll parent (es ++ es') r = readAll parent es' (readAll parent es r) := by
  induction es generalizing r with
  | nil => rfl
  | cons e es ih => exact ih _

end Elem

end Huntsman.Axml

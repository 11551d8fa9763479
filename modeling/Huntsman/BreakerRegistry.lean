import Huntsman.Breaker
import Huntsman.Lib.Lru
import Mathlib.Data.Prod.Lex

/-!
# The table of breakers

A `BreakerRegistry` keeps a breaker for each of at most `maxBreakerHosts` hosts.  A host that is
asked for has its number brought up to date, and when a host that is not held needs room, one is
given up: a host whose breaker is closed if there is any, and of those the one with the least
number.

The numbers are a `u64` that wraps around.  While they have not, the host given up is the one of its
class that was asked for least recently (`registry_guarantees`); when they have, it need not be
(`gives_up_last`).
-/

set_option autoImplicit false

namespace Huntsman.Circuit

open List

def maxBreakerHosts : ℕ := 2048

/-- Each host's breaker, and the number of the last call for it. -/
structure BreakerRegistry where
  hosts : AList fun _ : String ↦ Breaker × ℕ
  used : ℕ

/-- A call for a host, and the operations on the breaker it answers. -/
structure Visit where
  /-- The order in which the table lists its hosts during the call. -/
  order : Iteration (Sigma fun _ : String ↦ Breaker × ℕ)
  host : String
  calls : List Call

namespace BreakerRegistry

def empty : BreakerRegistry := ⟨∅, 0⟩

/-- What `min_by_key` compares when room is needed. -/
def evictionKey (entry : Sigma fun _ : String ↦ Breaker × ℕ) : Bool ×ₗ ℕ :=
  toLex (decide (entry.2.1.state ≠ .closed), entry.2.2)

/-- Give up a host if there is no room for this one. -/
def makeRoom (r : BreakerRegistry) (order : Iteration (Sigma fun _ : String ↦ Breaker × ℕ))
    (host : String) : BreakerRegistry :=
  if maxBreakerHosts ≤ r.hosts.entries.length ∧ host ∉ r.hosts then
    match r.hosts.minByKey order evictionKey with
    | some victim => { r with hosts := r.hosts.erase victim.1 }
    | none => r
  else r

/-- The breaker of a host, and the table that holds it. -/
def entry (r : BreakerRegistry) (order : Iteration (Sigma fun _ : String ↦ Breaker × ℕ))
    (host : String) : Breaker × BreakerRegistry :=
  let r := r.makeRoom order host
  let used := (r.used + 1) % 2 ^ 64
  let breaker := ((r.hosts.lookup host).map Prod.fst).getD .new
  (breaker, { hosts := r.hosts.insert host (breaker, used), used })

def state (r : BreakerRegistry) (host : String) : Option BreakerState :=
  (r.hosts.lookup host).map fun held ↦ held.1.state

/-- A call, and what is done with the breaker. -/
def visit (r : BreakerRegistry) (v : Visit) : BreakerRegistry :=
  let (breaker, r) := r.entry v.order v.host
  { r with hosts := r.hosts.insert v.host (v.calls.foldl Breaker.step breaker, r.used) }

/-- The table after a run. -/
def table (visits : List Visit) : BreakerRegistry := visits.foldl visit empty

/-! ## One call -/

variable {r : BreakerRegistry} {order : Iteration (Sigma fun _ : String ↦ Breaker × ℕ)}
  {host other : String}

/-- **What making room does.** -/
theorem makeRoom_cases (r : BreakerRegistry)
    (order : Iteration (Sigma fun _ : String ↦ Breaker × ℕ)) (host : String) :
    r.makeRoom order host = r ∧ (r.hosts.entries.length < maxBreakerHosts ∨ host ∈ r.hosts) ∨
      ∃ victim, r.hosts.minByKey order evictionKey = some victim ∧
        maxBreakerHosts ≤ r.hosts.entries.length ∧ host ∉ r.hosts ∧
        r.makeRoom order host = { r with hosts := r.hosts.erase victim.1 } := by
  rw [makeRoom]
  split_ifs with hfull
  · have hsome : r.hosts.entries ≠ [] := by
      intro hnil
      rw [hnil] at hfull
      exact absurd hfull.1 (by decide)
    obtain ⟨victim, hvictim⟩ := AList.exists_minByKey order evictionKey hsome
    exact .inr ⟨victim, hvictim, hfull.1, hfull.2, by rw [hvictim]⟩
  · rw [not_and_or, not_le, not_not] at hfull
    exact .inl ⟨rfl, hfull⟩

theorem makeRoom_used : (r.makeRoom order host).used = r.used := by
  rcases makeRoom_cases r order host with ⟨h, -⟩ | ⟨victim, -, -, -, h⟩ <;> rw [h]

/-- Making room leaves what it is made for as it was. -/
theorem makeRoom_lookup_self : (r.makeRoom order host).hosts.lookup host = r.hosts.lookup host := by
  rcases makeRoom_cases r order host with ⟨h, -⟩ | ⟨victim, hvictim, -, hnew, h⟩
  · rw [h]
  · have hne : host ≠ victim.1 := by
      rintro rfl
      exact hnew (mem_keys_of_mem (AList.minByKey_mem hvictim))
    rw [h]
    exact AList.lookup_erase_ne hne

theorem lookup_of_makeRoom {held : Breaker × ℕ}
    (h : (r.makeRoom order host).hosts.lookup other = some held) :
    r.hosts.lookup other = some held := by
  rcases makeRoom_cases r order host with ⟨hroom, -⟩ | ⟨victim, -, -, -, hroom⟩
  · rwa [hroom] at h
  · rw [hroom] at h
    by_cases hne : other = victim.1
    · subst hne
      rw [AList.lookup_erase] at h
      exact absurd h (Option.some_ne_none held).symm
    · rwa [AList.lookup_erase_ne hne] at h

/-- What is held is replaced, or there is room for what is new. -/
theorem makeRoom_length (h : r.hosts.entries.length ≤ maxBreakerHosts)
    (order : Iteration (Sigma fun _ : String ↦ Breaker × ℕ)) (host : String) :
    (r.makeRoom order host).hosts.entries.length ≤ maxBreakerHosts ∧
      ((r.makeRoom order host).hosts.entries.length < maxBreakerHosts ∨
        host ∈ (r.makeRoom order host).hosts) := by
  rcases makeRoom_cases r order host with ⟨hroom, hcases⟩ | ⟨victim, hvictim, -, -, hroom⟩
  · rw [hroom]
    exact ⟨h, hcases⟩
  · have herase := AList.length_erase_of_mem (mem_keys_of_mem (AList.minByKey_mem hvictim) :
      victim.1 ∈ r.hosts)
    rw [hroom]
    have hlt := herase.trans_le h
    exact ⟨Nat.le_of_succ_le hlt, .inl hlt⟩

/-- **What a call does**: room is made, and the host's breaker is brought up to date. -/
theorem visit_eq (r : BreakerRegistry) (v : Visit) :
    r.visit v =
      { hosts := (r.makeRoom v.order v.host).hosts.insert v.host
          (v.calls.foldl Breaker.step (((r.hosts.lookup v.host).map Prod.fst).getD .new),
            (r.used + 1) % 2 ^ 64)
        used := (r.used + 1) % 2 ^ 64 } := by
  simp only [visit, entry, makeRoom_used, makeRoom_lookup_self, AList.insert_insert]

theorem visit_used (r : BreakerRegistry) (v : Visit) :
    (r.visit v).used = (r.used + 1) % 2 ^ 64 := by
  rw [visit_eq]

theorem visit_lookup_self (r : BreakerRegistry) (v : Visit) :
    (r.visit v).hosts.lookup v.host =
      some (v.calls.foldl Breaker.step (((r.hosts.lookup v.host).map Prod.fst).getD .new),
        (r.used + 1) % 2 ^ 64) := by
  rw [visit_eq]
  exact AList.lookup_insert _

variable {v : Visit}

theorem visit_lookup_ne (h : other ≠ v.host) :
    (r.visit v).hosts.lookup other = (r.makeRoom v.order v.host).hosts.lookup other := by
  rw [visit_eq]
  exact AList.lookup_insert_ne h

theorem visit_length (h : r.hosts.entries.length ≤ maxBreakerHosts) :
    (r.visit v).hosts.entries.length ≤ maxBreakerHosts := by
  rw [visit_eq]
  rcases makeRoom_length h v.order v.host with ⟨hle, hlt | hmem⟩
  · exact (AList.length_insert_le _ v.host _).trans hlt
  · exact (AList.length_insert_of_mem hmem _).trans_le hle

/-! ## Runs -/

/-- The number of the last call for a host, or zero. -/
def lastEntry (visits : List Visit) (host : String) : ℕ :=
  visits.length - visits.reverse.findIdx (·.host = host)

theorem lastEntry_append_self {visits : List Visit} (v : Visit) :
    lastEntry (visits ++ [v]) v.host = visits.length + 1 := by
  simp [lastEntry, findIdx_cons]

theorem lastEntry_append_ne {visits : List Visit} (h : host ≠ v.host) :
    lastEntry (visits ++ [v]) host = lastEntry visits host := by
  simp [lastEntry, findIdx_cons, h.symm]

theorem lastEntry_le (visits : List Visit) (host : String) :
    lastEntry visits host ≤ visits.length := Nat.sub_le _ _

variable {visits : List Visit}

theorem table_append (visits : List Visit) (v : Visit) :
    table (visits ++ [v]) = (table visits).visit v := by
  rw [table, foldl_append]
  rfl

theorem table_used (visits : List Visit) : (table visits).used = visits.length % 2 ^ 64 := by
  induction visits using reverseRecOn with
  | nil => rfl
  | append_singleton visits v ih =>
    rw [table_append, visit_used, ih, length_append, length_singleton, Nat.mod_add_mod]

theorem table_length_le (visits : List Visit) :
    (table visits).hosts.entries.length ≤ maxBreakerHosts := by
  induction visits using reverseRecOn with
  | nil => exact Nat.zero_le _
  | append_singleton visits v ih =>
    rw [table_append]
    exact visit_length ih

/-- A host that is held has been asked for, and carries the number of the last call for it. -/
theorem tick_eq {held : Breaker × ℕ} (h : (table visits).hosts.lookup host = some held) :
    0 < lastEntry visits host ∧ held.2 = lastEntry visits host % 2 ^ 64 := by
  induction visits using reverseRecOn generalizing held with
  | nil => exact absurd h (Option.some_ne_none held).symm
  | append_singleton visits v ih =>
    rw [table_append] at h
    by_cases hhost : host = v.host
    · subst hhost
      rw [visit_lookup_self, Option.some_inj] at h
      rw [lastEntry_append_self, ← h, table_used, Nat.mod_add_mod]
      exact ⟨Nat.succ_pos _, rfl⟩
    · rw [visit_lookup_ne hhost] at h
      rw [lastEntry_append_ne hhost]
      exact ih (lookup_of_makeRoom h)

theorem lastEntry_injective (h : lastEntry visits host = lastEntry visits other)
    (hpos : 0 < lastEntry visits host) : host = other := by
  induction visits using reverseRecOn with
  | nil => exact absurd hpos (Nat.lt_irrefl 0)
  | append_singleton visits v ih =>
    by_cases hhost : host = v.host <;> by_cases hother : other = v.host
    · rw [hhost, hother]
    · rw [hhost, lastEntry_append_self, lastEntry_append_ne hother] at h
      exact absurd (lastEntry_le visits other) (h ▸ Nat.not_succ_le_self _)
    · rw [hother, lastEntry_append_self, lastEntry_append_ne hhost] at h
      exact absurd (lastEntry_le visits host) (h ▸ Nat.not_succ_le_self _)
    · rw [lastEntry_append_ne hhost, lastEntry_append_ne hother] at h
      rw [lastEntry_append_ne hhost] at hpos
      exact ih h hpos

/-! ## Who is given up -/

/-- The call `v` after the run gives up `host`. -/
def Evicted (visits : List Visit) (v : Visit) (host : String) : Prop :=
  host ∈ (table visits).hosts ∧ host ∉ (table (visits ++ [v])).hosts

/-- A call gives up a host only to make room for another, and the one that `min_by_key` finds. -/
theorem evicted_cases (h : Evicted visits v host) :
    v.host ∉ (table visits).hosts ∧ (table visits).hosts.entries.length = maxBreakerHosts ∧
      ∃ held, (table visits).hosts.lookup host = some held ∧
        (table visits).hosts.minByKey v.order evictionKey = some ⟨host, held⟩ := by
  obtain ⟨hbefore, hafter⟩ := h
  rw [table_append] at hafter
  have hne : host ≠ v.host := by
    rintro rfl
    exact hafter (AList.lookup_isSome.1 (by rw [visit_lookup_self]; rfl))
  rw [← AList.lookup_isSome, visit_lookup_ne hne, AList.lookup_isSome] at hafter
  rcases makeRoom_cases (table visits) v.order v.host with ⟨hroom, -⟩ | ⟨victim, hvictim, hfull, hnew, hroom⟩
  · rw [hroom] at hafter
    exact absurd hbefore hafter
  · rw [hroom] at hafter
    have hhost : host = victim.1 := by
      by_contra hother
      exact hafter (AList.mem_erase.2 ⟨hother, hbefore⟩)
    subst hhost
    refine ⟨hnew, (table_length_le visits).antisymm hfull, victim.2, ?_, hvictim⟩
    exact AList.mem_lookup_iff.2 (AList.minByKey_mem hvictim)

/-- The victim's class comes first, and then its number. -/
theorem evictionKey_le {a b : Sigma fun _ : String ↦ Breaker × ℕ}
    (h : evictionKey a ≤ evictionKey b) :
    (b.2.1.state = .closed → a.2.1.state = .closed) ∧
      ((b.2.1.state = .closed ↔ a.2.1.state = .closed) → a.2.2 ≤ b.2.2) := by
  rw [evictionKey, evictionKey, Prod.Lex.toLex_le_toLex] at h
  rcases h with hlt | ⟨heq, hle⟩
  · obtain ⟨ha, hb⟩ := Bool.lt_iff.1 hlt
    have ha : a.2.1.state = .closed := not_not.1 (of_decide_eq_false ha)
    exact ⟨fun _ ↦ ha, fun hclass ↦ absurd (hclass.2 ha) (of_decide_eq_true hb)⟩
  · have hclass : b.2.1.state ≠ .closed ↔ a.2.1.state ≠ .closed := (decide_eq_decide.1 heq).symm
    exact ⟨(not_iff_not.1 hclass).1, fun _ ↦ hle⟩

/-- **The victim is closed if any breaker is**, and of its class it was asked for least recently. -/
theorem victim_least (h : Evicted visits v host)
    (hother : other ∈ (table visits).hosts) :
    ((table visits).state other = some .closed → (table visits).state host = some .closed) ∧
      (visits.length < 2 ^ 64 → other ≠ host →
        ((table visits).state other = some .closed ↔ (table visits).state host = some .closed) →
          lastEntry visits host < lastEntry visits other) := by
  obtain ⟨-, -, held, hheld, hvictim⟩ := evicted_cases h
  obtain ⟨held', hheld'⟩ := Option.isSome_iff_exists.1 (AList.lookup_isSome.2 hother)
  have hle := AList.minByKey_le hvictim (AList.mem_lookup_iff.1 hheld')
  obtain ⟨hclosed, hnumber⟩ := evictionKey_le hle
  simp only [state, hheld, hheld', Option.map_some, Option.some_inj]
  refine ⟨hclosed, fun hfew hne hclass ↦ ?_⟩
  obtain ⟨hpos, htick⟩ := tick_eq hheld
  obtain ⟨-, htick'⟩ := tick_eq hheld'
  have hsmall (name : String) : lastEntry visits name % 2 ^ 64 = lastEntry visits name :=
    Nat.mod_eq_of_lt ((lastEntry_le visits name).trans_lt hfew)
  have hnumbers : held.2 ≤ held'.2 := hnumber hclass
  rw [htick, htick', hsmall, hsmall] at hnumbers
  exact hnumbers.lt_of_ne fun heq ↦ hne (lastEntry_injective heq hpos).symm

/-! ## What a breaker went through -/

/-- The breaker is what the operations on it made of a new one, since the call that put the host in
the table. -/
def MadeSince (visits : List Visit) (host : String) (breaker : Breaker) : Prop :=
  ∃ before first later, visits = before ++ first :: later ∧ first.host = host ∧
    host ∉ (table before).hosts ∧
    (∀ part, part <+: later → host ∈ (table (before ++ first :: part)).hosts) ∧
    breaker = after (((first :: later).filter (·.host = host)).flatMap Visit.calls)

theorem after_append (calls calls' : List Call) :
    after (calls ++ calls') = calls'.foldl Breaker.step (after calls) :=
  foldl_append

theorem MadeSince.first (hnew : v.host ∉ (table visits).hosts) :
    MadeSince (visits ++ [v]) v.host (v.calls.foldl Breaker.step .new) := by
  refine ⟨visits, v, [], rfl, rfl, hnew, fun part hpart ↦ ?_, ?_⟩
  · rw [prefix_nil.1 hpart, table_append, ← AList.lookup_isSome, visit_lookup_self]
    rfl
  · simp [after]

/-- The host is still held after one more call. -/
theorem MadeSince.append {breaker : Breaker} (h : MadeSince visits host breaker)
    (hheld : host ∈ (table (visits ++ [v])).hosts) :
    MadeSince (visits ++ [v]) host
      (if v.host = host then v.calls.foldl Breaker.step breaker else breaker) := by
  obtain ⟨before, first, later, rfl, hfirst, hnew, hkept, rfl⟩ := h
  refine ⟨before, first, later ++ [v], by simp, hfirst, hnew, fun part hpart ↦ ?_, ?_⟩
  · rcases prefix_concat_iff.1 hpart with rfl | hpart
    · simpa using hheld
    · exact hkept part hpart
  · have hlast : [v].filter (·.host = host) = if v.host = host then [v] else [] := by
      simp [filter_cons]
    rw [← cons_append, filter_append, flatMap_append, hlast]
    split_ifs with hhost
    · rw [flatMap_singleton, after_append]
    · rw [flatMap_nil, append_nil]

/-- **A breaker in the table is what the operations on it made of it** since its host was put
there. -/
theorem madeSince {held : Breaker × ℕ} (h : (table visits).hosts.lookup host = some held) :
    MadeSince visits host held.1 := by
  induction visits using reverseRecOn generalizing held with
  | nil => exact absurd h (Option.some_ne_none held).symm
  | append_singleton visits v ih =>
    have hheld : host ∈ (table (visits ++ [v])).hosts := AList.lookup_isSome.1 (h ▸ rfl)
    rw [table_append] at h
    by_cases hhost : host = v.host
    · subst hhost
      rw [visit_lookup_self, Option.some_inj] at h
      subst h
      rcases hbefore : (table visits).hosts.lookup v.host with _ | before
      · exact .first (AList.lookup_eq_none.1 hbefore)
      · have happend := (ih hbefore).append hheld
        rwa [if_pos rfl] at happend
    · rw [visit_lookup_ne hhost] at h
      have happend := (ih (lookup_of_makeRoom h)).append hheld
      rwa [if_neg (Ne.symm hhost)] at happend

/-! ## The guarantees -/

/-- **What the table guarantees** of every call after every run. -/
theorem registry_guarantees (visits : List Visit) (v : Visit) :
    (table (visits ++ [v])).hosts.entries.length ≤ maxBreakerHosts ∧
      (∀ host, Evicted visits v host →
        v.host ∉ (table visits).hosts ∧ (table visits).hosts.entries.length = maxBreakerHosts ∧
        ∀ other ∈ (table visits).hosts,
          ((table visits).state other = some .closed → (table visits).state host = some .closed) ∧
          (visits.length < 2 ^ 64 → other ≠ host →
            ((table visits).state other = some .closed ↔
              (table visits).state host = some .closed) →
            lastEntry visits host < lastEntry visits other)) ∧
      ∀ host held, (table (visits ++ [v])).hosts.lookup host = some held →
        MadeSince (visits ++ [v]) host held.1 := by
  refine ⟨table_length_le _, fun host hevicted ↦ ?_, fun host held hheld ↦ madeSince hheld⟩
  obtain ⟨hnew, hfull, -⟩ := evicted_cases hevicted
  exact ⟨hnew, hfull, fun other hother ↦ victim_least hevicted hother⟩

/-! ## Numbers that wrap around -/

/-- As many host names as are needed. -/
def hostName (i : ℕ) : String := .ofList (List.replicate i 'a')

theorem hostName_injective : Function.Injective hostName := by
  intro i j h
  have hlists := congrArg String.toList h
  rw [hostName, hostName, String.toList_ofList, String.toList_ofList] at hlists
  simpa using congrArg length hlists

/-- A call for a host that does nothing with its breaker. -/
def call (i : ℕ) : Visit := ⟨.asListed _, hostName i, []⟩

/-- The entry of a host after the call with the given number. -/
def numbered (i number : ℕ) : Sigma fun _ : String ↦ Breaker × ℕ :=
  ⟨hostName i, .new, number % 2 ^ 64⟩

/-- One host is asked for `n` times, and then `k` others once each. -/
def filling (n k : ℕ) : List Visit :=
  List.replicate n (call 0) ++ (List.range k).map fun i ↦ call (i + 1)

theorem filling_length (n k : ℕ) : (filling n k).length = n + k := by
  simp [filling]

theorem filling_succ (n k : ℕ) : filling n (k + 1) = filling n k ++ [call (k + 1)] := by
  simp [filling, range_succ]

/-- While there is room, a call for a host brings its entry to the front. -/
theorem visit_call {i : ℕ} (hroom : r.hosts.entries.length < maxBreakerHosts)
    (hbreaker : ∀ held, r.hosts.lookup (hostName i) = some held → held.1 = .new) :
    (r.visit (call i)).hosts.entries
      = numbered i (r.used + 1) :: r.hosts.entries.kerase (hostName i) := by
  have hsame : r.makeRoom (call i).order (hostName i) = r := by
    rw [makeRoom, if_neg fun h ↦ hroom.not_ge h.1]
  have hnew : ((r.hosts.lookup (hostName i)).map Prod.fst).getD .new = Breaker.new := by
    rcases hfind : r.hosts.lookup (hostName i) with _ | held
    · rfl
    · exact hbreaker held hfind
  rw [visit_eq, AList.entries_insert]
  show (⟨hostName i, ((r.hosts.lookup (hostName i)).map Prod.fst).getD .new, _⟩ : Sigma _) ::
    (r.makeRoom (call i).order (hostName i)).hosts.entries.kerase (hostName i) = _
  rw [hsame, hnew]
  rfl

theorem replicate_entries {n : ℕ} (hn : 0 < n) :
    (table (List.replicate n (call 0))).hosts.entries = [numbered 0 n] := by
  induction n, hn using Nat.le_induction with
  | base => rfl
  | succ n hn ih =>
    rw [replicate_succ', table_append, visit_call, ih, table_used, length_replicate]
    · rw [numbered, numbered, Nat.mod_add_mod]
      exact congrArg _ (kerase_cons_eq rfl)
    · rw [ih]
      exact Nat.lt_of_sub_eq_succ rfl
    · intro held hheld
      have hmem := AList.mem_lookup_iff.1 hheld
      rw [ih, mem_singleton] at hmem
      rw [eq_of_heq (Sigma.mk.inj hmem).2]

/-- The entries after the first calls for `k` more hosts, the last host first. -/
theorem filling_entries {n k : ℕ} (hn : 0 < n) (hk : k < maxBreakerHosts) :
    (table (filling n k)).hosts.entries =
      ((List.range (k + 1)).map fun i ↦ numbered i (n + i)).reverse := by
  induction k with
  | zero =>
    rw [filling, range_zero, map_nil, append_nil, replicate_entries hn]
    rfl
  | succ k ih =>
    have hentries := ih (Nat.lt_of_succ_lt hk)
    have hlength : (table (filling n k)).hosts.entries.length = k + 1 := by
      rw [hentries, length_reverse, length_map, length_range]
    have hnew : hostName (k + 1) ∉ (table (filling n k)).hosts := by
      rw [AList.mem_keys, AList.keys, ne_key, hentries]
      rintro held hheld hname
      obtain ⟨i, hi, rfl⟩ := mem_map.1 (mem_reverse.1 hheld)
      exact absurd (hostName_injective hname ▸ mem_range.1 hi) (Nat.lt_irrefl _)
    rw [filling_succ, table_append, visit_call (hlength ▸ hk), kerase_of_notMem_keys hnew,
      hentries, table_used, filling_length, range_succ (n := k + 1), map_append,
      reverse_append]
    · rw [numbered, Nat.mod_add_mod, Nat.add_assoc]
      rfl
    · intro held hheld
      exact absurd (AList.lookup_isSome.1 (hheld ▸ rfl)) hnew

variable {n i : ℕ}

theorem mem_filling {held : Sigma fun _ : String ↦ Breaker × ℕ} (hn : 0 < n) :
    held ∈ (table (filling n 2047)).hosts.entries ↔ ∃ i < 2048, numbered i (n + i) = held := by
  rw [filling_entries hn (by decide), mem_reverse, mem_map]
  exact exists_congr fun i ↦ and_congr_left fun _ ↦ mem_range

theorem filling_lookup (hn : 0 < n) (hi : i < 2048) :
    (table (filling n 2047)).hosts.lookup (hostName i) = some (.new, (n + i) % 2 ^ 64) :=
  AList.mem_lookup_iff.2 ((mem_filling hn).2 ⟨i, hi, rfl⟩)

/-- When the last host was asked for as the numbers began again, it is given up at once. -/
theorem filling_evicted (hn : 0 < n) (hwrap : n + 2047 = 2 ^ 64) :
    Evicted (filling n 2047) (call 2048) (hostName 2047) := by
  have hheld := filling_lookup hn (i := 2047) (by decide)
  have hnew : hostName 2048 ∉ (table (filling n 2047)).hosts := by
    rw [AList.mem_keys, AList.keys, ne_key]
    rintro held hheld hname
    obtain ⟨i, hi, rfl⟩ := (mem_filling hn).1 hheld
    exact absurd (hostName_injective hname ▸ hi) (Nat.lt_irrefl _)
  have hfull : (table (filling n 2047)).hosts.entries.length = maxBreakerHosts := by
    rw [filling_entries hn (by decide), length_reverse, length_map, length_range]
    rfl
  refine ⟨AList.lookup_isSome.1 (hheld ▸ rfl), ?_⟩
  have hne : hostName 2047 ≠ (call 2048).host := hostName_injective.ne (by decide)
  rw [table_append, ← AList.lookup_isSome, visit_lookup_ne hne, AList.lookup_isSome]
  rcases makeRoom_cases (table (filling n 2047)) (call 2048).order (call 2048).host with
    ⟨-, hlt | hmem⟩ | ⟨victim, hvictim, -, -, hroom⟩
  · exact absurd hfull hlt.ne
  · exact absurd hmem hnew
  · -- the number of the last host is 0, and no other is
    obtain ⟨i, hi, rfl⟩ := (mem_filling hn).1 (AList.minByKey_mem hvictim)
    have hle := (evictionKey_le (AList.minByKey_le hvictim (AList.mem_lookup_iff.1 hheld))).2 .rfl
    have hlast : i = 2047 := by
      simp only [numbered] at hle
      omega
    rw [hroom, AList.mem_erase, hlast]
    exact fun h ↦ h.1 rfl

/-- **The table gives up the host that was asked for last** when the numbers have just begun
again. -/
theorem gives_up_last :
    ¬ ∀ visits v host, Evicted visits v host → ∀ other ∈ (table visits).hosts, other ≠ host →
      ((table visits).state other = some .closed ↔ (table visits).state host = some .closed) →
      lastEntry visits host < lastEntry visits other := by
  intro hleast
  obtain ⟨n, hn, hwrap⟩ : ∃ n, 0 < n ∧ n + 2047 = 2 ^ 64 := ⟨2 ^ 64 - 2047, by decide, by decide⟩
  have hfirst := filling_lookup hn (i := 0) (by decide)
  have hheld := filling_lookup hn (i := 2047) (by decide)
  have hclass : (table (filling n 2047)).state (hostName 0) = some .closed ↔
      (table (filling n 2047)).state (hostName 2047) = some .closed := by
    rw [state, state, hfirst, hheld, Option.map_some, Option.map_some]
  have hlt := hleast _ _ _ (filling_evicted hn hwrap) (hostName 0)
    (AList.lookup_isSome.1 (hfirst ▸ rfl)) (hostName_injective.ne (by decide)) hclass
  have hlast : lastEntry (filling n 2047) (hostName 2047) = (filling n 2047).length := by
    rw [filling_succ, length_append]
    exact lastEntry_append_self (call 2047)
  rw [hlast] at hlt
  exact absurd (lastEntry_le (filling n 2047) (hostName 0)) hlt.not_ge

end BreakerRegistry

end Huntsman.Circuit

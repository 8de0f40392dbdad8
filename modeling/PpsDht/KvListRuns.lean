import PpsDht.KvList

/-! `get_kv_pair` under every pattern of allocation failures: how a listing ends, and the
accesses to the array recorded along the actual run. -/
namespace PpsDht

open CLib Loop

/-! Whole listings. -/

def demands (size allocated : Nat) : Nat → List Demand
  | 0 => []
  | n + 1 => reserveDemands size allocated ++ [.copy, .copy] ++
      demands (size + 1) (grownAllocated size allocated) n

inductive Listed (list : KvList) (pairs : List KvPair) : Option Demand → ErrorCode → KvList → Prop
  | complete {list' : KvList} (valid : list'.Valid) (elems : list'.elems = list.elems ++ pairs) :
      Listed list pairs none .none list'
  | restored {demand : Demand} {list' : KvList} (array : demand ≠ .copy)
      (counted : list'.size = list'.elems.length) : Listed list pairs (some demand) .nomem list'
  | countedUp {list' : KvList} (counted : list'.size = list'.elems.length + 1) :
      Listed list pairs (some .copy) .nomem list'

theorem Listed.cons {list list' : KvList} {current : KvPair} {pairs : List KvPair}
    {demand : Option Demand} {error : ErrorCode}
    (listed : Listed (list.grown current) pairs demand error list') :
    Listed list (current :: pairs) demand error list' := by
  cases listed with
  | complete valid elems => exact .complete valid (by simpa [KvList.grown] using elems)
  | restored array counted => exact .restored array counted
  | countedUp counted => exact .countedUp counted

theorem chainLoop_listed {list : KvList} (valid : list.Valid) (pairs : Bucket) (fuel : Nat)
    (a : Alloc) :
    ∃ error list', chainLoop (fuel + 2) pairs list a = .done (error, list',
        (firstRefused (demands list.size list.allocated pairs.length) a).2) ∧
      Listed list pairs (firstRefused (demands list.size list.allocated pairs.length) a).1
        error list' := by
  induction pairs generalizing list a with
  | nil => exact ⟨.none, list, rfl, .complete valid (List.append_nil _).symm⟩
  | cons current next ih =>
    have added := addPair_eq valid current fuel a
    rw [List.length_cons, demands, firstRefused_append]
    rcases refused : firstRefused (reserveDemands list.size list.allocated ++ [.copy, .copy]) a with
      ⟨_ | demand, rest⟩
    · simp only [refused] at added ⊢
      obtain ⟨error, list', ended, listed⟩ := ih (valid.grown current (fits_of_met refused)) rest
      refine ⟨error, list', ?_, listed.cons⟩
      simp only [chainLoop, added, Outcome.bind]
      exact ended
    · simp only [refused] at added ⊢
      cases demand with
      | copy =>
        refine ⟨.nomem, { list with
          size := list.size + 1, allocated := grownAllocated list.size list.allocated }, ?_, ?_⟩
        · simp only [chainLoop, added, Outcome.bind]
        · exact .countedUp (congrArg (· + 1) valid.counted)
      | _ =>
        refine ⟨.nomem, list, ?_, .restored (by simp) valid.counted⟩
        simp only [chainLoop, added, Outcome.bind]

theorem getKvPair_listed {list : KvList} (valid : list.Valid) (t : Htable) (fuel : Nat)
    (a : Alloc) :
    ∃ error list', getKvPair (fuel + 2) list t a = .done (error, list',
        (firstRefused (demands list.size list.allocated t.content.length) a).2) ∧
      Listed list t.content (firstRefused (demands list.size list.allocated t.content.length) a).1
        error list' := by
  have some : list.allocated ≠ 0 := by
    have := valid.room
    omega
  simp only [getKvPair, some, ↓reduceIte, bucketLoop_eq]
  exact chainLoop_listed valid t.content fuel a

/-! Accesses to the array. -/

inductive ListEvent where
  | double (allocated : Nat)
  | realloc (count : Nat)
  | write (index allocated : Nat)
  deriving DecidableEq

/-- Nothing wraps around in a `size_t`, and writes are inside the array. -/
def ListEvent.Safe : ListEvent → Prop
  | .double allocated => allocated * 2 < 2 ^ 64
  | .realloc count => count * sizeofKvPair < 2 ^ 64
  | .write index allocated => index < allocated

def reserveEvents (s : KvList × Alloc) : List ListEvent :=
  if s.1.allocated ≤ s.1.size then
    let allocated := s.1.allocated * 2 % 2 ^ 64
    .double s.1.allocated ::
      if sizeMax / sizeofKvPair < allocated then [] else [.realloc allocated]
  else []

/-- The growing loop, and the write of a pair that could be copied. -/
def addPairEvents (fuel : Nat) (list : KvList) (current : KvPair) (a : Alloc) : List ListEvent :=
  (visits reserveStep fuel ({ list with size := list.size + 1 }, a)).flatMap reserveEvents ++
    match addPair fuel list current a with
    | .done (.none, list, _) => [.write (list.size - 1) list.allocated]
    | _ => []

def listingEvents (fuel : Nat) : Bucket → KvList → Alloc → List ListEvent
  | [], _, _ => []
  | current :: next, list, a =>
    addPairEvents fuel list current a ++
      match addPair fuel list current a with
      | .done (.none, list, a) => listingEvents fuel next list a
      | _ => []

theorem reserveEvents_safe {s : KvList × Alloc}
    (addressable : s.1.allocated ≤ sizeMax / sizeofKvPair) :
    ∀ event ∈ reserveEvents s, event.Safe := by
  have limit : sizeMax / sizeofKvPair = 2 ^ 60 - 1 := by decide
  intro event member
  rw [reserveEvents] at member
  split at member
  · rcases List.mem_cons.mp member with rfl | later
    · rw [ListEvent.Safe]
      omega
    · split at later
      · simp at later
      next fits =>
        obtain rfl := List.mem_singleton.mp later
        have : sizeofKvPair = 16 := rfl
        rw [ListEvent.Safe, this]
        omega
  · simp at member

theorem reserveStep_addressable {s s' : KvList × Alloc} (next : reserveStep s = .next s') :
    s'.1.allocated ≤ sizeMax / sizeofKvPair := by
  simp only [reserveStep] at next
  split at next
  · split at next
    · contradiction
    next fits =>
      split at next
      · contradiction
      · obtain rfl := Step.next.inj next
        exact Nat.le_of_not_lt fits
  · contradiction

theorem addPairEvents_safe {list : KvList} (valid : list.Valid) (current : KvPair) (fuel : Nat)
    (a : Alloc) : ∀ event ∈ addPairEvents (fuel + 2) list current a, event.Safe := by
  intro event member
  rcases List.mem_append.mp member with growing | writing
  · obtain ⟨s, visited, here⟩ := List.mem_flatMap.mp growing
    have addressable := visits_of_invariant
      (fun s : KvList × Alloc => s.1.allocated ≤ sizeMax / sizeofKvPair)
      (fun _ _ _ next => reserveStep_addressable next) valid.addressable _ s visited
    exact reserveEvents_safe addressable event here
  · split at writing
    next list' rest added =>
      obtain ⟨rfl, _⟩ := addPair_grown valid added
      obtain rfl := List.mem_singleton.mp writing
      have room := valid.lt_grown
      simp only [ListEvent.Safe, KvList.grown, Nat.add_sub_cancel]
      omega
    · simp at writing

theorem listingEvents_safe {list : KvList} (valid : list.Valid) (pairs : Bucket) (fuel : Nat)
    (a : Alloc) : ∀ event ∈ listingEvents (fuel + 2) pairs list a, event.Safe := by
  induction pairs generalizing list a with
  | nil => simp [listingEvents]
  | cons current next ih =>
    intro event member
    rcases List.mem_append.mp member with here | later
    · exact addPairEvents_safe valid current fuel a event here
    · split at later
      next list' rest added =>
        obtain ⟨rfl, valid'⟩ := addPair_grown valid added
        exact ih valid' rest event later
      · simp at later

/-! The two ways a listing ends. -/

/-- A listing that returns without an error has appended the whole content, and every
listing, failed or not, keeps to the array and to the range of `size_t`. -/
theorem getKvPair_complete (t : Htable) {list : KvList} (valid : list.Valid) (fuel : Nat)
    (a : Alloc) :
    (∀ event ∈ listingEvents (fuel + 2) t.content list a, event.Safe) ∧
    (∃ error list' rest, getKvPair (fuel + 2) list t a = .done (error, list', rest)) ∧
    ∀ list' rest, getKvPair (fuel + 2) list t a = .done (.none, list', rest) →
      list'.elems = list.elems ++ t.content ∧ list'.size = list'.elems.length ∧
        list'.size < list'.allocated := by
  obtain ⟨error, found, ended, listed⟩ := getKvPair_listed valid t fuel a
  refine ⟨listingEvents_safe valid t.content fuel a, ⟨error, found, _, ended⟩, ?_⟩
  intro list' rest returned
  simp only [ended, Outcome.done.injEq, Prod.mk.injEq] at returned
  obtain ⟨rfl, rfl, _⟩ := returned
  generalize (firstRefused (demands list.size list.allocated t.content.length) a).1 = demand at listed
  cases listed with
  | complete valid' elems => exact ⟨elems, valid'.counted, valid'.room⟩

/-- One element in an array of two, and a table of one node: the array is doubled. -/
theorem getKvPair_complete_doubled :
    getKvPair 2 ⟨[⟨.empty, .empty⟩], 1, 2⟩ ((Htable.empty 1).put (.ofMemory [97]) (.ofMemory [98]))
        [true, true, true, false] =
      .done (.none, ⟨[⟨.empty, .empty⟩, ⟨.ofMemory [97], .ofMemory [98]⟩], 2, 4⟩, [false]) ∧
    [⟨.empty, .empty⟩, ⟨.ofMemory [97], .ofMemory [98]⟩] =
      [⟨.empty, .empty⟩] ++ ((Htable.empty 1).put (.ofMemory [97]) (.ofMemory [98])).content := by
  have valid : KvList.Valid ⟨[⟨.empty, .empty⟩], 1, 2⟩ := ⟨by decide, by decide, by decide⟩
  have complete := getKvPair_complete ((Htable.empty 1).put (.ofMemory [97]) (.ofMemory [98]))
    valid 0 [true, true, true, false]
  have listed : getKvPair 2 ⟨[⟨.empty, .empty⟩], 1, 2⟩
      ((Htable.empty 1).put (.ofMemory [97]) (.ofMemory [98])) [true, true, true, false] =
        .done (.none, ⟨[⟨.empty, .empty⟩, ⟨.ofMemory [97], .ofMemory [98]⟩], 2, 4⟩, [false]) := by
    decide +kernel
  exact ⟨listed, (complete.2.2 _ _ listed).1⟩

/-- After a failed listing the size counts the elements written exactly when the failure
was not that of a copy. -/
theorem failed_listing_counts_iff (t : Htable) {list : KvList} (valid : list.Valid) (fuel : Nat)
    (a : Alloc) :
    (∀ list' rest, getKvPair (fuel + 2) list t a = .done (.nomem, list', rest) →
        list'.size = list'.elems.length) ↔
      (firstRefused (demands list.size list.allocated t.content.length) a).1 ≠ some .copy := by
  obtain ⟨error, found, ended, listed⟩ := getKvPair_listed valid t fuel a
  rw [ended]
  generalize (firstRefused (demands list.size list.allocated t.content.length) a).1 = demand at listed
  cases listed with
  | complete valid' elems => simp
  | restored array counted =>
    refine iff_of_true ?_ (by simpa using array)
    rintro list' rest returned
    simp only [Outcome.done.injEq, Prod.mk.injEq, true_and] at returned
    exact returned.1 ▸ counted
  | countedUp counted =>
    refine iff_of_false (fun kept => ?_) (by simp)
    have := kept found _ rfl
    omega

/-- A realloc that fails restores the size. -/
theorem failed_listing_counts_doubled : ∃ list',
    getKvPair 2 ⟨[⟨.empty, .empty⟩], 1, 2⟩ ((Htable.empty 1).put (.ofMemory [97]) (.ofMemory [98]))
        [false] = .done (.nomem, list', []) ∧ list'.size = list'.elems.length := by
  have valid : KvList.Valid ⟨[⟨.empty, .empty⟩], 1, 2⟩ := ⟨by decide, by decide, by decide⟩
  have refused : getKvPair 2 ⟨[⟨.empty, .empty⟩], 1, 2⟩
      ((Htable.empty 1).put (.ofMemory [97]) (.ofMemory [98])) [false] =
        .done (.nomem, ⟨[⟨.empty, .empty⟩], 1, 2⟩, []) := by decide +kernel
  exact ⟨_, refused, (failed_listing_counts_iff _ valid 0 [false]).mpr (by decide +kernel) _ _ refused⟩

/-- Without memory for the first key a new list of one table node counts an element it
does not have. -/
theorem failed_copy_is_counted :
    ¬ ∀ (t : Htable) (list : KvList), list.Valid → ∀ fuel a list' rest,
      getKvPair (fuel + 2) list t a = .done (.nomem, list', rest) →
        list'.size = list'.elems.length := by
  intro counts
  have valid : KvList.Valid ⟨[], 0, kvListSize⟩ := ⟨by decide, by decide, by decide⟩
  have counted := counts ((Htable.empty 1).put (.ofMemory [97]) (.ofMemory [98])) _ valid 0 [false]
    ⟨[], 1, kvListSize⟩ [] (by decide +kernel)
  exact absurd counted (by decide)

/-! The content of a table. -/

theorem firstRefused_erase (ds : List Demand) (a : Alloc) (met : (firstRefused ds a).1 = none) :
    firstRefused ds [] = (none, []) := by
  induction ds generalizing a with
  | nil => rfl
  | cons demand ds ih =>
    cases demand with
    | limit => simp [firstRefused] at met
    | _ =>
      simp only [firstRefused, malloc_nil] at met ⊢
      rcases outcome : malloc a with ⟨_ | _, rest⟩
      · simp [outcome] at met
      · exact ih rest (by simpa only [outcome] using met)

theorem getHtableContent_some {t : Htable} {fuel : Nat} {a rest : Alloc} {list : KvList}
    (built : getHtableContent (fuel + 2) t a = .done (some list, rest)) :
    list.elems = t.content ∧ list.size = t.content.length ∧ t.content.length < maxAllocated := by
  have created : ∃ left, createKvList a = (some ⟨[], 0, kvListSize⟩, left) := by
    rcases first : malloc a with ⟨_ | _, second⟩
    · simp [getHtableContent, createKvList, first] at built
    · rcases last : malloc second with ⟨_ | _, left⟩
      · simp [getHtableContent, createKvList, first, last, getKvPair, Outcome.bind] at built
      · exact ⟨left, by simp only [createKvList, first, last]⟩
  obtain ⟨left, created⟩ := created
  have valid : KvList.Valid ⟨[], 0, kvListSize⟩ := ⟨by decide, by decide, by decide⟩
  obtain ⟨error, found, ended, listed⟩ := getKvPair_listed valid t fuel left
  obtain ⟨error', found', ended', listed'⟩ := getKvPair_listed valid t fuel []
  simp only [getHtableContent, created, ended, Outcome.bind] at built
  generalize met : (firstRefused (demands 0 kvListSize t.content.length) left).1 = demand at listed
  cases listed with
  | complete valid' elems =>
    simp only [Outcome.done.injEq, Prod.mk.injEq, Option.some.injEq] at built
    obtain ⟨rfl, _⟩ := built
    have whole : found.elems = t.content := elems
    refine ⟨whole, by rw [valid'.counted, whole], ?_⟩
    rw [firstRefused_erase _ left met] at listed' ended'
    cases listed' with
    | complete =>
      rcases getHtableContent_nil t fuel with ⟨below, _⟩ | ⟨_, none⟩
      · exact below
      · simp [getHtableContent, createKvList_nil, ended', Outcome.bind] at none
  | restored => simp at built
  | countedUp => simp at built

end PpsDht

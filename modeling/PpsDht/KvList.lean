import PpsDht.Htable
import PpsDht.Lib.Loop

/-! The content of a table as a list: `create_kv_list`, `get_kv_pair` and
`get_Htable_content` of `hashtable.c`. The array grows by doubling; `elems` holds the
elements written so far and `size` is the source's own counter. -/
namespace PpsDht

open CLib Loop

structure KvList where
  elems : List KvPair
  size : Nat
  allocated : Nat
  deriving DecidableEq

/-- The bytes of a `kv_pair_t`: two pointers. -/
def sizeofKvPair : Nat := 16

def kvListSize : Nat := htableSize

/-- A list whose array cannot be allocated is returned with room for nothing. -/
def createKvList (a : Alloc) : Option KvList × Alloc :=
  match malloc a with
  | (false, a) => (none, a)
  | (true, a) =>
    match malloc a with
    | (false, a) => (some ⟨[], 0, 0⟩, a)
    | (true, a) => (some ⟨[], 0, kvListSize⟩, a)

/-- One evaluation of `while (list->size >= list->allocated)`. -/
def reserveStep (s : KvList × Alloc) : Step (KvList × Alloc) (Bool × KvList × Alloc) :=
  let (list, a) := s
  if list.allocated ≤ list.size then
    let allocated := list.allocated * 2 % 2 ^ 64
    let restored := { list with allocated := allocated / 2, size := list.size - 1 }
    if sizeMax / sizeofKvPair < allocated then .done (false, restored, a)
    else
      match malloc a with
      | (false, a) => .done (false, restored, a)
      | (true, a) => .next ({ list with allocated := allocated }, a)
  else .done (true, list, a)

/-- The loop body of `get_kv_pair`; after a failed copy the size stays counted up. -/
def addPair (fuel : Nat) (list : KvList) (current : KvPair) (a : Alloc) :
    Outcome (ErrorCode × KvList × Alloc) :=
  (iterate reserveStep fuel ({ list with size := list.size + 1 }, a)).bind fun
    | (false, list, a) => .done (.nomem, list, a)
    | (true, list, a) =>
      match strdup current.key a with
      | (none, a) => .done (.nomem, list, a)
      | (some key, a) =>
        match strdup current.value a with
        | (none, a) => .done (.nomem, list, a)
        | (some value, a) => .done (.none, { list with elems := list.elems ++ [⟨key, value⟩] }, a)

def chainLoop (fuel : Nat) : Bucket → KvList → Alloc → Outcome (ErrorCode × KvList × Alloc)
  | [], list, a => .done (.none, list, a)
  | current :: next, list, a =>
    (addPair fuel list current a).bind fun
      | (.none, list, a) => chainLoop fuel next list a
      | failed => .done failed

def bucketLoop (fuel : Nat) : List Bucket → KvList → Alloc → Outcome (ErrorCode × KvList × Alloc)
  | [], list, a => .done (.none, list, a)
  | bucket :: rest, list, a =>
    (chainLoop fuel bucket list a).bind fun
      | (.none, list, a) => bucketLoop fuel rest list a
      | failed => .done failed

def getKvPair (fuel : Nat) (list : KvList) (t : Htable) (a : Alloc) :
    Outcome (ErrorCode × KvList × Alloc) :=
  if list.allocated = 0 then .done (.nomem, list, a) else bucketLoop fuel t.elements list a

def getHtableContent (fuel : Nat) (t : Htable) (a : Alloc) : Outcome (Option KvList × Alloc) :=
  match createKvList a with
  | (none, a) => .done (none, a)
  | (some list, a) =>
    (getKvPair fuel list t a).bind fun
      | (.none, list, a) => .done (some list, a)
      | (_, _, a) => .done (none, a)

/-! Adding one pair. What it asks of the allocator depends on the counters only, and the
first demand that is not met decides how it ends. -/

theorem reserveStep_room (list : KvList) (room : list.size < list.allocated) (a : Alloc) :
    reserveStep (list, a) = .done (true, list, a) := by
  simp only [reserveStep, Nat.not_le.mpr room, ↓reduceIte]

/-- A full array is doubled while the doubled one can be addressed. -/
theorem reserveStep_full (list : KvList) (full : list.allocated ≤ list.size)
    (small : list.allocated ≤ sizeMax / sizeofKvPair) (a : Alloc) :
    reserveStep (list, a) =
      if sizeMax / sizeofKvPair < list.allocated * 2 then
        .done (false, { list with size := list.size - 1 }, a)
      else
        match malloc a with
        | (false, a) => .done (false, { list with size := list.size - 1 }, a)
        | (true, a) => .next ({ list with allocated := list.allocated * 2 }, a) := by
  have limit : sizeMax / sizeofKvPair = 2 ^ 60 - 1 := by decide
  have double : list.allocated * 2 % 2 ^ 64 = list.allocated * 2 := by
    apply Nat.mod_eq_of_lt
    omega
  have half : list.allocated * 2 / 2 = list.allocated := Nat.mul_div_cancel _ (by omega)
  simp only [reserveStep, full, double, half, ↓reduceIte]

/-- A list as its creator and every successful listing leave it; its array exists, so
its bytes can be counted in a `size_t`. -/
structure KvList.Valid (list : KvList) : Prop where
  counted : list.size = list.elems.length
  room : list.size < list.allocated
  addressable : list.allocated ≤ sizeMax / sizeofKvPair

/-- What adding pairs asks for: a longer array, refused beyond a limit, and copies. -/
inductive Demand where
  | limit
  | array
  | copy
  deriving DecidableEq

def grownAllocated (size allocated : Nat) : Nat :=
  if allocated ≤ size + 1 then allocated * 2 else allocated

def reserveDemands (size allocated : Nat) : List Demand :=
  if allocated ≤ size + 1 then
    if sizeMax / sizeofKvPair < allocated * 2 then [.limit] else [.array]
  else []

/-- The first demand that is not met, and the allocations left. -/
def firstRefused : List Demand → Alloc → Option Demand × Alloc
  | [], a => (none, a)
  | .limit :: _, a => (some .limit, a)
  | demand :: rest, a =>
    match malloc a with
    | (false, a) => (some demand, a)
    | (true, a) => firstRefused rest a

theorem firstRefused_append (front back : List Demand) (a : Alloc) :
    firstRefused (front ++ back) a =
      match firstRefused front a with
      | (none, a) => firstRefused back a
      | refused => refused := by
  induction front generalizing a with
  | nil => rfl
  | cons demand front ih =>
    cases demand with
    | limit => rfl
    | _ =>
      simp only [List.cons_append, firstRefused]
      rcases malloc a with ⟨_ | _, rest⟩
      · rfl
      · exact ih rest

def KvList.grown (list : KvList) (current : KvPair) : KvList :=
  ⟨list.elems ++ [current], list.size + 1, grownAllocated list.size list.allocated⟩

theorem KvList.Valid.lt_grown {list : KvList} (valid : list.Valid) :
    list.size + 1 < grownAllocated list.size list.allocated := by
  have room := valid.room
  rw [grownAllocated]
  split <;> omega

theorem KvList.Valid.grown {list : KvList} (valid : list.Valid) (current : KvPair)
    (fits : .limit ∉ reserveDemands list.size list.allocated) : (list.grown current).Valid where
  counted := by simp [KvList.grown, valid.counted]
  room := valid.lt_grown
  addressable := by
    have addressable := valid.addressable
    simp only [KvList.grown, grownAllocated, reserveDemands] at fits ⊢
    split
    next full =>
      rw [if_pos full] at fits
      by_contra beyond
      simp [Nat.lt_of_not_le beyond] at fits
    next => exact addressable

theorem reserve_eq {list : KvList} (valid : list.Valid) (fuel : Nat) (a : Alloc) :
    iterate reserveStep (fuel + 2) ({ list with size := list.size + 1 }, a) =
      match firstRefused (reserveDemands list.size list.allocated) a with
      | (none, a) => .done (true, { list with
          size := list.size + 1, allocated := grownAllocated list.size list.allocated }, a)
      | (some _, a) => .done (false, list, a) := by
  have room := valid.lt_grown
  by_cases full : list.allocated ≤ list.size + 1
  · have step := reserveStep_full { list with size := list.size + 1 } full valid.addressable a
    simp only [reserveDemands, grownAllocated, full, ↓reduceIte, Nat.add_sub_cancel] at step room ⊢
    by_cases beyond : sizeMax / sizeofKvPair < list.allocated * 2
    · rw [if_pos beyond] at step
      rw [if_pos beyond, iterate_done step]
      rfl
    · rw [if_neg beyond] at step
      rw [if_neg beyond]
      rcases outcome : malloc a with ⟨_ | _, rest⟩
      · simp only [outcome] at step
        simp only [firstRefused, outcome, iterate_done step]
      · simp only [outcome] at step
        have next := reserveStep_room
          { list with size := list.size + 1, allocated := list.allocated * 2 } room rest
        simp only [firstRefused, outcome, iterate_next step, iterate_done next]
  · have step := reserveStep_room { list with size := list.size + 1 } (Nat.lt_of_not_le full) a
    simp only [reserveDemands, grownAllocated, full, ↓reduceIte, firstRefused]
    exact iterate_done step _

/-- The copies of one pair: a failed one leaves the size counted up. -/
theorem addPair_eq {list : KvList} (valid : list.Valid) (current : KvPair) (fuel : Nat)
    (a : Alloc) :
    addPair (fuel + 2) list current a =
      match firstRefused (reserveDemands list.size list.allocated ++ [.copy, .copy]) a with
      | (none, a) => .done (.none, list.grown current, a)
      | (some .copy, a) => .done (.nomem, { list with
          size := list.size + 1, allocated := grownAllocated list.size list.allocated }, a)
      | (some _, a) => .done (.nomem, list, a) := by
  rw [addPair, reserve_eq valid, firstRefused_append]
  have noCopy : (firstRefused (reserveDemands list.size list.allocated) a).1 ≠ some .copy := by
    rw [reserveDemands]
    split
    · split
      · simp [firstRefused]
      · simp only [firstRefused]
        rcases malloc a with ⟨_ | _, rest⟩ <;> simp
    · simp [firstRefused]
  rcases refused : firstRefused (reserveDemands list.size list.allocated) a with ⟨_ | demand, rest⟩
  · simp only [Outcome.bind, firstRefused, strdup]
    rcases malloc rest with ⟨_ | _, second⟩
    · rfl
    · dsimp only
      rcases malloc second with ⟨_ | _, third⟩ <;> rfl
  · rw [refused] at noCopy
    cases demand with
    | copy => exact absurd rfl noCopy
    | _ => rfl

theorem fits_of_met {size allocated : Nat} {more : List Demand} {a rest : Alloc}
    (met : firstRefused (reserveDemands size allocated ++ more) a = (none, rest)) :
    .limit ∉ reserveDemands size allocated := by
  intro beyond
  rw [reserveDemands] at met beyond
  split at beyond
  next full =>
    rw [if_pos full] at met
    split at beyond
    · simp_all [firstRefused]
    · simp at beyond
  · simp at beyond

theorem addPair_grown {list list' : KvList} {current : KvPair} {fuel : Nat} {a rest : Alloc}
    (valid : list.Valid)
    (added : addPair (fuel + 2) list current a = .done (.none, list', rest)) :
    list' = list.grown current ∧ list'.Valid := by
  rw [addPair_eq valid] at added
  rcases met : firstRefused (reserveDemands list.size list.allocated ++ [.copy, .copy]) a with
    ⟨_ | demand, left⟩
  · simp only [met, Outcome.done.injEq, Prod.mk.injEq, true_and] at added
    obtain ⟨rfl, _⟩ := added
    exact ⟨rfl, valid.grown current (fits_of_met met)⟩
  · simp only [met] at added
    cases demand <;> simp at added

/-! Nested loops over a table are one loop over its content. -/

theorem chainLoop_append (fuel : Nat) (front back : Bucket) (list : KvList) (a : Alloc) :
    chainLoop fuel (front ++ back) list a = (chainLoop fuel front list a).bind fun
      | (.none, list, a) => chainLoop fuel back list a
      | failed => .done failed := by
  induction front generalizing list a with
  | nil => rfl
  | cons current front ih =>
    simp only [List.cons_append, chainLoop]
    cases addPair fuel list current a with
    | done added =>
      obtain ⟨error, list', rest⟩ := added
      cases error with
      | none => exact ih list' rest
      | _ => rfl
    | fault => rfl
    | outOfFuel => rfl

theorem bucketLoop_eq (fuel : Nat) (buckets : List Bucket) (list : KvList) (a : Alloc) :
    bucketLoop fuel buckets list a = chainLoop fuel buckets.flatten list a := by
  induction buckets generalizing list a with
  | nil => rfl
  | cons bucket rest ih =>
    rw [List.flatten_cons, chainLoop_append, bucketLoop]
    congr 1
    funext added
    obtain ⟨error, list', left⟩ := added
    cases error with
    | none => exact ih list' left
    | _ => rfl

/-! The listing with all allocations succeeding. -/

/-- All pairs, bucket by bucket and in chain order. -/
def Htable.content (t : Htable) : List KvPair := t.elements.flatten

/-- The array never grows beyond 2^59 elements. -/
def maxAllocated : Nat := 2 ^ 59

/-- A list being filled: every counted element is written and there is room for one more. -/
structure KvList.Filling (list : KvList) : Prop where
  counted : list.size = list.elems.length
  room : list.size < list.allocated
  power : ∃ n, list.allocated = 2 ^ n
  small : list.allocated ≤ maxAllocated

theorem createKvList_nil : createKvList [] = (some ⟨[], 0, kvListSize⟩, []) := rfl

theorem filling_start : KvList.Filling ⟨[], 0, kvListSize⟩ where
  counted := rfl
  room := by decide
  power := ⟨8, rfl⟩
  small := by decide

theorem KvList.Filling.valid {list : KvList} (filling : list.Filling) : list.Valid where
  counted := filling.counted
  room := filling.room
  addressable := Nat.le_trans filling.small (by decide)

theorem double_le_maxAllocated {allocated : Nat} (power : ∃ n, allocated = 2 ^ n)
    (below : allocated < maxAllocated) : allocated * 2 ≤ maxAllocated := by
  obtain ⟨n, rfl⟩ := power
  have less : n < 59 := (Nat.pow_lt_pow_iff_right (by decide)).mp below
  calc 2 ^ n * 2 = 2 ^ (n + 1) := (Nat.pow_succ 2 n).symm
    _ ≤ 2 ^ 59 := Nat.pow_le_pow_right (by decide) less

theorem firstRefused_filling {list : KvList} (filling : list.Filling) :
    firstRefused (reserveDemands list.size list.allocated ++ [.copy, .copy]) [] =
      (if list.size + 1 < maxAllocated then none else some .limit, []) := by
  have limit : sizeMax / sizeofKvPair = maxAllocated * 2 - 1 := by decide
  have small := filling.small
  have room := filling.room
  by_cases full : list.allocated ≤ list.size + 1
  · by_cases last : list.size + 1 < maxAllocated
    · rw [reserveDemands, if_pos full, if_neg (by omega), if_pos last]
      rfl
    · rw [reserveDemands, if_pos full, if_pos (by omega), if_neg last]
      rfl
  · rw [reserveDemands, if_neg full, if_pos (by omega)]
    rfl

theorem KvList.Filling.grown {list : KvList} (filling : list.Filling) (current : KvPair)
    (below : list.size + 1 < maxAllocated) : (list.grown current).Filling := by
  have met := firstRefused_filling filling
  rw [if_pos below] at met
  have valid := filling.valid.grown current (fits_of_met met)
  obtain ⟨n, power⟩ := filling.power
  have room := filling.room
  by_cases full : list.allocated ≤ list.size + 1
  · have allocated : (list.grown current).allocated = list.allocated * 2 := if_pos full
    have twice := double_le_maxAllocated filling.power (by omega)
    exact ⟨valid.counted, valid.room, ⟨n + 1, by rw [allocated, power, Nat.pow_succ]⟩,
      allocated ▸ twice⟩
  · have allocated : (list.grown current).allocated = list.allocated := if_neg full
    exact ⟨valid.counted, valid.room, ⟨n, allocated.trans power⟩, allocated ▸ filling.small⟩

/-- A list that was given `pairs` more elements, or a listing that ran out of room. -/
def Filled (list : KvList) (pairs : List KvPair) (outcome : Outcome (ErrorCode × KvList × Alloc)) :
    Prop :=
  (list.size + pairs.length < maxAllocated ∧ ∃ list', list'.Filling ∧
      list'.elems = list.elems ++ pairs ∧ outcome = .done (.none, list', [])) ∨
    maxAllocated ≤ list.size + pairs.length ∧ ∃ list', outcome = .done (.nomem, list', [])

theorem KvList.Filling.below {list : KvList} (filling : list.Filling) : list.size < maxAllocated :=
  Nat.lt_of_lt_of_le filling.room filling.small

theorem Filled.nil {list : KvList} (filling : list.Filling) :
    Filled list [] (.done (.none, list, [])) :=
  .inl ⟨filling.below, list, filling, (List.append_nil _).symm, rfl⟩

theorem Filled.bind {list : KvList} {first second : List KvPair}
    {outcome : Outcome (ErrorCode × KvList × Alloc)} {f : KvList → Alloc →
      Outcome (ErrorCode × KvList × Alloc)} (filling : list.Filling)
    (filled : Filled list first outcome)
    (next : ∀ list' : KvList, list'.Filling → Filled list' second (f list' [])) :
    Filled list (first ++ second) (outcome.bind fun
      | (.none, list, a) => f list a
      | failed => .done failed) := by
  rcases filled with ⟨_, list', filling', elems, rfl⟩ | ⟨full, list', rfl⟩
  · have size : list'.size = list.size + first.length := by
      rw [filling'.counted, elems, List.length_append, filling.counted]
    rcases next list' filling' with ⟨room, last, filling'', elems', ended⟩ | ⟨full, last, ended⟩
    · refine .inl ⟨by rw [List.length_append]; omega, last, filling'', ?_, by simp only [Outcome.bind, ended]⟩
      rw [elems', elems, List.append_assoc]
    · exact .inr ⟨by rw [List.length_append]; omega, last, by simp only [Outcome.bind, ended]⟩
  · exact .inr ⟨by rw [List.length_append]; omega, list', by simp only [Outcome.bind]⟩

theorem addPair_filled {list : KvList} (filling : list.Filling) (current : KvPair) (fuel : Nat) :
    Filled list [current] (addPair (fuel + 2) list current []) := by
  rw [addPair_eq filling.valid, firstRefused_filling filling]
  by_cases below : list.size + 1 < maxAllocated
  · rw [if_pos below]
    exact .inl ⟨below, list.grown current, filling.grown current below, rfl, rfl⟩
  · rw [if_neg below]
    exact .inr ⟨Nat.le_of_not_lt below, list, rfl⟩

theorem chainLoop_filled {list : KvList} (filling : list.Filling) (chain : Bucket) (fuel : Nat) :
    Filled list chain (chainLoop (fuel + 2) chain list []) := by
  induction chain generalizing list with
  | nil => exact Filled.nil filling
  | cons current next ih =>
    exact (addPair_filled filling current fuel).bind filling fun list' filling' => ih filling'

theorem bucketLoop_filled {list : KvList} (filling : list.Filling) (buckets : List Bucket)
    (fuel : Nat) : Filled list buckets.flatten (bucketLoop (fuel + 2) buckets list []) := by
  rw [bucketLoop_eq]
  exact chainLoop_filled filling buckets.flatten fuel

/-- The listing is the whole content, or missing when that has 2^59 pairs or more. -/
theorem getHtableContent_nil (t : Htable) (fuel : Nat) :
    (t.content.length < maxAllocated ∧ ∃ list : KvList, list.elems = t.content ∧
        list.size = t.content.length ∧
        getHtableContent (fuel + 2) t [] = .done (some list, [])) ∨
      maxAllocated ≤ t.content.length ∧
        getHtableContent (fuel + 2) t [] = .done (none, []) := by
  have filled := bucketLoop_filled filling_start t.elements fuel
  have some : kvListSize ≠ 0 := by decide
  rcases filled with ⟨room, list', filling', elems, ended⟩ | ⟨full, list', ended⟩
  · have whole : list'.elems = t.content := elems
    refine .inl ⟨by simpa [Htable.content] using room, list', whole, ?_, ?_⟩
    · rw [filling'.counted, whole]
    · simp only [getHtableContent, createKvList_nil, getKvPair, some, ↓reduceIte, ended,
        Outcome.bind]
  · refine .inr ⟨by simpa [Htable.content] using full, ?_⟩
    simp only [getHtableContent, createKvList_nil, getKvPair, some, ↓reduceIte, ended, Outcome.bind]

end PpsDht

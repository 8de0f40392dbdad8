import PpsDht.Client

/-! What `parse_opt_args` takes for options. Tokens are compared in their first two bytes
only, so longer ones that begin like an option or like `--` are taken for it. -/
namespace PpsDht

open CLib

/-- `-n`, `-w` and `-r` for their letters. -/
def optionToken (letter : UInt8) (nonzero : letter ≠ 0) : CString :=
  ⟨[45, letter], by simpa using nonzero.symm⟩

def optionN : CString := optionToken 110 (by decide)

def optionW : CString := optionToken 119 (by decide)

def optionR : CString := optionToken 114 (by decide)

/-- `--` -/
def endMark : CString := optionToken 45 (by decide)

theorem startsWith_iff (token : CString) (letter : UInt8) (nonzero : letter ≠ 0) :
    startsWith token [45, letter] = true ↔ optionToken letter nonzero ≤ token := by
  rw [startsWith, decide_eq_true_eq]
  exact strncmp_eq_zero_iff (optionToken letter nonzero) token

theorem isEndMark_iff (token : CString) : isEndMark token = true ↔ endMark ≤ token :=
  startsWith_iff token 45 (by decide)

/-- A supported option, written out exactly. -/
def IsOption (supported : UInt64) (token : CString) : Prop :=
  supports supported totalServers = true ∧ token = optionN ∨
    supports supported putNeeded = true ∧ token = optionW ∨
      supports supported getNeeded = true ∧ token = optionR

def IsPair (supported : UInt64) (option : CString × CString) : Prop :=
  IsOption supported option.1 ∧ (Decimal.scan option.2.bytes).isSome = true

def flatten (options : List (CString × CString)) : List CString :=
  options.flatMap fun option => [option.1, option.2]

@[simp] theorem flatten_nil : flatten [] = [] := rfl

@[simp] theorem flatten_cons (option : CString × CString) (options : List (CString × CString)) :
    flatten (option :: options) = option.1 :: option.2 :: flatten options := rfl

def numbersFor (name : CString) (options : List (CString × CString)) : List UInt64 :=
  (options.filter fun option => option.1 = name).filterMap fun option =>
    Decimal.scan option.2.bytes

/-- The last number given for an option, or its default. -/
def lastNumber (name : CString) (options : List (CString × CString)) (default : UInt64) : UInt64 :=
  (numbersFor name options).getLast?.getD default

/-! What the loop recognises. -/

theorem optionToken_le_unique {token : CString} {a b : UInt8} {ha : a ≠ 0} {hb : b ≠ 0}
    (first : optionToken a ha ≤ token) (second : optionToken b hb ≤ token) : a = b := by
  have same : (optionToken a ha).bytes = (optionToken b hb).bytes :=
    List.prefix_of_prefix_length_le first second (Nat.le_refl _) |>.eq_of_length rfl
  simpa [optionToken] using same

/-- The loop takes a token for an option when it begins like a supported one. -/
theorem optionSetter_isSome_iff (supported : UInt64) (token : CString) :
    (optionSetter supported token).isSome = true ↔
      ∃ option, IsOption supported option ∧ option ≤ token := by
  have n := startsWith_iff token 110 (by decide)
  have w := startsWith_iff token 119 (by decide)
  have r := startsWith_iff token 114 (by decide)
  simp only [optionSetter, Bool.and_eq_true, n, w, r]
  constructor
  · intro taken
    split at taken
    next h => exact ⟨optionN, .inl ⟨h.1, rfl⟩, h.2⟩
    split at taken
    next h => exact ⟨optionW, .inr (.inl ⟨h.1, rfl⟩), h.2⟩
    split at taken
    next h => exact ⟨optionR, .inr (.inr ⟨h.1, rfl⟩), h.2⟩
    simp at taken
  · rintro ⟨option, ⟨flag, rfl⟩ | ⟨flag, rfl⟩ | ⟨flag, rfl⟩, le⟩
    · rw [if_pos ⟨flag, le⟩]
      rfl
    · split
      · rfl
      · rw [if_pos ⟨flag, le⟩]
        rfl
    · split
      · rfl
      split
      · rfl
      · rw [if_pos ⟨flag, le⟩]
        rfl

theorem optionSetter_option {supported : UInt64} {token : CString}
    (option : IsOption supported token) :
    ∃ set, optionSetter supported token = some set ∧ ∀ (args : Args) (n : UInt64),
      set args n = ⟨if token = optionN then n else args.N, if token = optionW then n else args.W,
        if token = optionR then n else args.R⟩ := by
  have nw : startsWith optionW [45, 110] = false := by decide
  have nr : startsWith optionR [45, 110] = false := by decide
  have wr : startsWith optionR [45, 119] = false := by decide
  have nn : startsWith optionN [45, 110] = true := by decide
  have ww : startsWith optionW [45, 119] = true := by decide
  have rr : startsWith optionR [45, 114] = true := by decide
  rcases option with ⟨flag, rfl⟩ | ⟨flag, rfl⟩ | ⟨flag, rfl⟩
  · exact ⟨_, by rw [optionSetter, flag, nn]; rfl, fun args n => rfl⟩
  · exact ⟨_, by rw [optionSetter, nw, flag, ww, Bool.and_false]; rfl, fun args n => rfl⟩
  · exact ⟨_, by rw [optionSetter, nr, wr, flag, rr, Bool.and_false, Bool.and_false]; rfl,
      fun args n => rfl⟩

theorem not_isEndMark_of_option {supported : UInt64} {option token : CString}
    (exact : IsOption supported option) (le : option ≤ token) : ¬ isEndMark token = true := by
  rw [isEndMark_iff]
  intro mark
  rcases exact with ⟨_, rfl⟩ | ⟨_, rfl⟩ | ⟨_, rfl⟩
  · exact absurd (optionToken_le_unique le mark) (by decide)
  · exact absurd (optionToken_le_unique le mark) (by decide)
  · exact absurd (optionToken_le_unique le mark) (by decide)

theorem IsOption.strlen {supported : UInt64} {token : CString} (option : IsOption supported token) :
    token.strlen = 2 := by
  rcases option with ⟨_, rfl⟩ | ⟨_, rfl⟩ | ⟨_, rfl⟩ <;> rfl

/-- A longer token that begins like a supported option or like `--`. -/
def Lookalike (supported : UInt64) (token : CString) : Prop :=
  endMark < token ∨ ∃ option, IsOption supported option ∧ option < token

/-! Runs of the loop. -/

def isTreated (supported : UInt64) (token : CString) : Bool :=
  !isEndMark token && (optionSetter supported token).isSome

def treatedOptions (supported : UInt64) : List CString → List CString
  | [] => []
  | [token] => if isTreated supported token then [token] else []
  | token :: number :: rest =>
    if isTreated supported token then
      token :: if (Decimal.scan number.bytes).isSome then treatedOptions supported rest else []
    else []

theorem treatedOptions_of_not {supported : UInt64} {token : CString}
    (passed : ¬ isTreated supported token = true) (rest : List CString) :
    treatedOptions supported (token :: rest) = [] := by
  cases rest with
  | nil => exact if_neg passed
  | cons number rest => rw [treatedOptions, if_neg passed]

/-- The token skipped as the end of the options, if there is one. -/
def treatedMarks (supported : UInt64) (argv : List CString) : List CString :=
  match optionLoop supported Args.default argv with
  | (some _, token :: _) => if isEndMark token then [token] else []
  | _ => []

def Args.given (args : Args) (options : List (CString × CString)) : Args where
  N := lastNumber optionN options args.N
  W := lastNumber optionW options args.W
  R := lastNumber optionR options args.R

theorem lastNumber_cons (name : CString) (option : CString × CString)
    (options : List (CString × CString)) {n : UInt64}
    (scanned : Decimal.scan option.2.bytes = some n) (default : UInt64) :
    lastNumber name (option :: options) default =
      lastNumber name options (if option.1 = name then n else default) := by
  by_cases here : option.1 = name
  · have first : numbersFor name (option :: options) = n :: numbersFor name options := by
      simp [numbersFor, here, scanned]
    rw [lastNumber, first, List.getLast?_cons, if_pos here, Option.getD_some, lastNumber]
  · have other : numbersFor name (option :: options) = numbersFor name options := by
      simp [numbersFor, here]
    rw [lastNumber, other, if_neg here, lastNumber]

section Runs

variable {supported : UInt64} {options : List (CString × CString)}

theorem optionLoop_flatten (pairs : ∀ option ∈ options, IsPair supported option)
    (rest : List CString) (args : Args) :
    optionLoop supported args (flatten options ++ rest) =
      optionLoop supported (args.given options) rest := by
  induction options generalizing args with
  | nil => rfl
  | cons option options ih =>
    obtain ⟨exact, number⟩ := pairs option List.mem_cons_self
    obtain ⟨n, scanned⟩ := Option.isSome_iff_exists.mp number
    obtain ⟨set, found, sets⟩ := optionSetter_option exact
    have unmarked := not_isEndMark_of_option exact le_rfl
    have later := ih (fun o member => pairs o (List.mem_cons_of_mem _ member)) (set args n)
    simp only [flatten_cons, List.cons_append, optionLoop, unmarked, Bool.false_eq_true, ↓reduceIte,
      found, scanned]
    rw [later, sets]
    simp only [Args.given, lastNumber_cons _ option options scanned]

theorem treatedOptions_flatten (pairs : ∀ option ∈ options, IsPair supported option)
    (rest : List CString) :
    treatedOptions supported (flatten options ++ rest) =
      options.map Prod.fst ++ treatedOptions supported rest := by
  induction options with
  | nil => rfl
  | cons option options ih =>
    obtain ⟨exact, number⟩ := pairs option List.mem_cons_self
    obtain ⟨n, scanned⟩ := Option.isSome_iff_exists.mp number
    obtain ⟨set, found, _⟩ := optionSetter_option exact
    have unmarked := not_isEndMark_of_option exact le_rfl
    have treated : isTreated supported option.1 = true := by simp [isTreated, unmarked, found]
    have later := ih fun o member => pairs o (List.mem_cons_of_mem _ member)
    rw [flatten_cons, List.cons_append, List.cons_append, treatedOptions, if_pos treated,
      if_pos number, later, List.map_cons, List.cons_append]

/-- Every argument vector starts with a longest run of options and their numbers. -/
theorem exists_longest (supported : UInt64) : ∀ argv : List CString, ∃ options rest,
    argv = flatten options ++ rest ∧ (∀ option ∈ options, IsPair supported option) ∧
      ∀ option more, rest = option.1 :: option.2 :: more → ¬ IsPair supported option
  | [] => ⟨[], [], rfl, by simp, by simp⟩
  | [token] => ⟨[], [token], rfl, by simp, by simp⟩
  | token :: number :: rest => by
    by_cases pair : IsPair supported (token, number)
    · obtain ⟨options, tail, whole, pairs, longest⟩ := exists_longest supported rest
      refine ⟨(token, number) :: options, tail, by simp [whole], ?_, longest⟩
      exact List.forall_mem_cons.mpr ⟨pair, pairs⟩
    · refine ⟨[], token :: number :: rest, rfl, by simp, ?_⟩
      rintro ⟨first, second⟩ more whole
      obtain ⟨rfl, rest⟩ := List.cons.inj whole
      obtain ⟨rfl, _⟩ := List.cons.inj rest
      exact pair

/-- How the loop ends where no option with a number follows and nothing looks like one. -/
theorem optionLoop_stop {rest : List CString} (args : Args)
    (longest : ∀ option more, rest = option.1 :: option.2 :: more → ¬ IsPair supported option)
    (clear : ∀ token more, rest = token :: more → ¬ Lookalike supported token) :
    (optionLoop supported args rest = (some args, rest) ∧ treatedOptions supported rest = [] ∧
        ∀ token more, rest = token :: more → isEndMark token = true → token = endMark) ∨
      (optionLoop supported args rest).1 = none ∧
        ∀ token ∈ treatedOptions supported rest, IsOption supported token := by
  cases rest with
  | nil => exact .inl ⟨rfl, rfl, by simp⟩
  | cons token more =>
    have clear := clear token more rfl
    by_cases mark : isEndMark token = true
    · refine .inl ⟨by simp [optionLoop, mark], treatedOptions_of_not (by simp [isTreated, mark]) more, ?_⟩
      rintro _ _ whole _
      obtain ⟨rfl, _⟩ := List.cons.inj whole
      by_contra longer
      exact clear (.inl (lt_of_le_of_ne ((isEndMark_iff token).mp mark) (Ne.symm longer)))
    · cases found : optionSetter supported token with
      | none =>
        refine .inl ⟨by simp [optionLoop, mark, found], treatedOptions_of_not (by simp [isTreated, found]) more, ?_⟩
        rintro _ _ whole marked
        obtain ⟨rfl, _⟩ := List.cons.inj whole
        exact absurd marked mark
      | some set =>
        obtain ⟨option, exact, le⟩ := (optionSetter_isSome_iff supported token).mp (by simp [found])
        have same : option = token := by
          by_contra shorter
          exact clear (.inr ⟨option, exact, lt_of_le_of_ne le shorter⟩)
        subst same
        cases more with
        | nil =>
          refine .inr ⟨by simp [optionLoop, mark, found], ?_⟩
          simpa [treatedOptions, isTreated, mark, found] using exact
        | cons number more =>
          have unread : Decimal.scan number.bytes = none := by
            rw [← Option.not_isSome_iff_eq_none]
            exact fun scanned => longest (option, number) more rfl ⟨exact, scanned⟩
          refine .inr ⟨by simp [optionLoop, mark, found, unread], ?_⟩
          simpa [treatedOptions, isTreated, mark, found, unread] using exact

end Runs

/-! Whole calls. -/

theorem skipEndMark_of_not {rest : List CString}
    (unmarked : ∀ token more, rest = token :: more → ¬ isEndMark token = true) :
    skipEndMark rest = rest := by
  cases rest with
  | nil => rfl
  | cons token more => exact if_neg (unmarked token more rfl)

theorem parseOptions_some {supported : UInt64} {argv rest : List CString} {args : Args}
    (parsed : parseOptions supported argv = (some args, rest)) :
    ∃ left, optionLoop supported Args.default argv = (some args, left) ∧ rest = skipEndMark left ∧
      ¬ (supports supported totalServers = true ∧ supports supported putNeeded = true ∧
        args.N < args.W) ∧
      ¬ (supports supported totalServers = true ∧ supports supported getNeeded = true ∧
        args.N < args.R) := by
  rw [parseOptions] at parsed
  rcases ended : optionLoop supported Args.default argv with ⟨_ | result, left⟩
  · simp [ended] at parsed
  simp only [ended] at parsed
  split at parsed
  · simp at parsed
  next writes =>
    split at parsed
    · simp at parsed
    next reads =>
      simp only [Prod.mk.injEq, Option.some.injEq] at parsed
      obtain ⟨rfl, rfl⟩ := parsed
      refine ⟨left, rfl, rfl, ?_, ?_⟩
      · simpa [and_assoc] using writes
      · simpa [and_assoc] using reads

/-- What a result is meant to be: the longest run of options with their numbers and a
`--` right behind it are consumed, and the last number given for an option counts. -/
structure Consumes (supported : UInt64) (argv : List CString) (args : Args) (rest : List CString)
    (options : List (CString × CString)) (marks : List CString) : Prop where
  whole : argv = flatten options ++ (marks ++ rest)
  pairs : ∀ option ∈ options, IsPair supported option
  longest : ∀ option more, marks ++ rest = option.1 :: option.2 :: more → ¬ IsPair supported option
  mark : marks = [endMark] ∨ marks = [] ∧ rest.head? ≠ some endMark
  values : args = Args.default.given options

/-- Only options and `--` written out exactly are taken for them, and a result consumes
what it is meant to. -/
structure ParsesExactly (supported : UInt64) (argv : List CString) : Prop where
  options : ∀ token ∈ treatedOptions supported argv, IsOption supported token
  marks : ∀ token ∈ treatedMarks supported argv, token = endMark
  result : ∀ a args rest left, parseOptArgs supported argv a = (some args, rest, left) →
    ∃ options marks, Consumes supported argv args rest options marks

/-- Behind options with their numbers comes no token that looks like an option or like `--`
without being it. -/
def NoLookalike (supported : UInt64) (argv : List CString) : Prop :=
  ∀ options token rest, argv = flatten options ++ token :: rest →
    (∀ option ∈ options, IsPair supported option) → ¬ Lookalike supported token

section Stopped

variable {supported : UInt64} {options : List (CString × CString)} {rest : List CString}

/-- A loop that stops at `rest` skips a `--` there and nothing else. -/
theorem consumes_skipEndMark (pairs : ∀ option ∈ options, IsPair supported option)
    (longest : ∀ option more, rest = option.1 :: option.2 :: more → ¬ IsPair supported option)
    (exactMark : ∀ token more, rest = token :: more → isEndMark token = true → token = endMark) :
    ∃ marks, Consumes supported (flatten options ++ rest) (Args.default.given options)
      (skipEndMark rest) options marks := by
  by_cases marked : ∃ token more, rest = token :: more ∧ isEndMark token = true
  · obtain ⟨token, more, rfl, marked⟩ := marked
    obtain rfl := exactMark token more rfl marked
    exact ⟨[endMark], by simp [skipEndMark, marked], pairs,
      by simpa [skipEndMark, marked] using longest, .inl rfl, rfl⟩
  · push Not at marked
    have kept := skipEndMark_of_not marked
    refine ⟨[], by rw [kept, List.nil_append], pairs, by simpa [kept] using longest,
      .inr ⟨rfl, ?_⟩, rfl⟩
    rw [kept]
    intro first
    cases rest with
    | nil => simp at first
    | cons token more =>
      obtain rfl := Option.some.inj first
      exact marked endMark more rfl (by decide)

theorem treatedMarks_exact {argv : List CString} {args : Args}
    (stopped : optionLoop supported Args.default argv = (some args, rest))
    (exactMark : ∀ token more, rest = token :: more → isEndMark token = true → token = endMark) :
    ∀ token ∈ treatedMarks supported argv, token = endMark := by
  intro token member
  rw [treatedMarks, stopped] at member
  cases rest with
  | nil => simp at member
  | cons first more =>
    dsimp only at member
    split at member
    next marked =>
      obtain rfl := List.mem_singleton.mp member
      exact exactMark token more rfl marked
    next => simp at member

theorem treatedMarks_failed {argv : List CString}
    (failed : (optionLoop supported Args.default argv).1 = none) :
    treatedMarks supported argv = [] := by
  rcases ended : optionLoop supported Args.default argv with ⟨_ | _, _⟩
  · rw [treatedMarks, ended]
  · simp [ended] at failed

end Stopped

theorem parsesExactly_of_noLookalike {supported : UInt64} {argv : List CString}
    (clear : NoLookalike supported argv) : ParsesExactly supported argv := by
  obtain ⟨options, rest, rfl, pairs, longest⟩ := exists_longest supported argv
  have clear : ∀ token more, rest = token :: more → ¬ Lookalike supported token := by
    rintro token more rfl
    exact clear options token more rfl pairs
  have ended := optionLoop_flatten pairs rest Args.default
  have treated := treatedOptions_flatten pairs rest
  have exact_options : ∀ token ∈ options.map Prod.fst, IsOption supported token := by
    intro token member
    obtain ⟨option, inside, rfl⟩ := List.mem_map.mp member
    exact (pairs option inside).1
  rcases optionLoop_stop (Args.default.given options) longest clear with
    ⟨stopped, none, exactMark⟩ | ⟨failed, exactOption⟩
  · rw [stopped] at ended
    refine ⟨by rwa [treated, none, List.append_nil], treatedMarks_exact ended exactMark, ?_⟩
    intro a args left b parsed
    obtain ⟨left', returned, rfl, _⟩ := parseOptions_some (parseOptArgs_some parsed)
    rw [ended] at returned
    simp only [Prod.mk.injEq, Option.some.injEq] at returned
    obtain ⟨rfl, rfl⟩ := returned
    exact ⟨options, consumes_skipEndMark pairs longest exactMark⟩
  · rw [← ended] at failed
    refine ⟨?_, by simp [treatedMarks_failed failed], fun a args left b parsed => ?_⟩
    · rw [treated]
      exact List.forall_mem_append.mpr ⟨exact_options, exactOption⟩
    · obtain ⟨left', returned, _⟩ := parseOptions_some (parseOptArgs_some parsed)
      simp [returned] at failed

/-- The parser goes by what the tokens are exactly when none of them only looks like an
option or like `--`. -/
theorem options_exact_iff (supported : UInt64) (argv : List CString) :
    ParsesExactly supported argv ↔ NoLookalike supported argv := by
  refine ⟨?_, parsesExactly_of_noLookalike⟩
  rintro parses options token rest rfl pairs (longer | ⟨option, exact, longer⟩)
  · have marked := (isEndMark_iff token).mpr longer.le
    have skipped : treatedMarks supported (flatten options ++ token :: rest) = [token] := by
      rw [treatedMarks, optionLoop_flatten pairs, optionLoop, if_pos marked]
      exact if_pos marked
    exact longer.ne (parses.marks token (skipped ▸ List.mem_singleton_self token)).symm
  · have found := (optionSetter_isSome_iff supported token).mpr ⟨option, exact, longer.le⟩
    have unmarked := not_isEndMark_of_option exact longer.le
    have treated : token ∈ treatedOptions supported (flatten options ++ token :: rest) := by
      have taken : isTreated supported token = true := by simp [isTreated, found, unmarked]
      rw [treatedOptions_flatten pairs]
      refine List.mem_append_right _ ?_
      cases rest with
      | nil => simp [treatedOptions, taken]
      | cons number rest => simp [treatedOptions, taken]
    have short := (parses.options token treated).strlen
    refine longer.ne (CString.ext (longer.le.eq_of_length ?_))
    exact exact.strlen.trans short.symm

/-- The first key of `pps-client-cat --k x` is skipped as if it were `--`. -/
theorem options_swallow_key :
    ¬ ∀ supported argv, ParsesExactly supported argv := by
  intro parses
  have marks := (parses (totalServers ||| putNeeded ||| getNeeded)
    [⟨[45, 45, 107], by decide⟩, ⟨[120], by decide⟩]).marks
  exact absurd (marks ⟨[45, 45, 107], by decide⟩ (by decide)) (by decide)

end PpsDht

import PpsDht.Options

/-! `client_init` on any argument vector: what a failed call leaves behind, and what a
successful one has established about the arguments, the numbers and the ring. -/
namespace PpsDht

open CLib Loop

/-- What the parser steps over, by its own notion of an option and of the end mark. -/
structure Advanced (supported : UInt64) (consumed : List CString)
    (options : List (CString × CString)) (marks : List CString) : Prop where
  whole : consumed = flatten options ++ marks
  options : ∀ option ∈ options, isTreated supported option.1 = true ∧
    (Decimal.scan option.2.bytes).isSome = true
  marks : marks = [] ∨ ∃ mark, marks = [mark] ∧ isEndMark mark = true

theorem optionLoop_advanced {supported : UInt64} {args result : Args} {argv left : List CString}
    (ended : optionLoop supported args argv = (some result, left)) :
    ∃ options, argv = flatten options ++ left ∧ ∀ option ∈ options,
      isTreated supported option.1 = true ∧ (Decimal.scan option.2.bytes).isSome = true := by
  fun_induction optionLoop supported args argv with
  | case1 args =>
    obtain ⟨_, rfl⟩ := Prod.mk.inj ended
    exact ⟨[], rfl, by simp⟩
  | case2 args token rest marked =>
    obtain ⟨_, rfl⟩ := Prod.mk.inj ended
    exact ⟨[], rfl, by simp⟩
  | case3 args token rest unmarked passed =>
    obtain ⟨_, rfl⟩ := Prod.mk.inj ended
    exact ⟨[], rfl, by simp⟩
  | case4 => simp at ended
  | case5 => simp at ended
  | case6 args token unmarked set found number rest n scanned ih =>
    obtain ⟨options, rfl, read⟩ := ih ended
    refine ⟨(token, number) :: options, rfl, List.forall_mem_cons.mpr ⟨⟨?_, ?_⟩, read⟩⟩
    · simp [isTreated, unmarked, found]
    · simp [scanned]

theorem skipEndMark_advanced (left : List CString) :
    ∃ marks, left = marks ++ skipEndMark left ∧
      (marks = [] ∨ ∃ mark, marks = [mark] ∧ isEndMark mark = true) := by
  cases left with
  | nil => exact ⟨[], rfl, .inl rfl⟩
  | cons token rest =>
    by_cases marked : isEndMark token = true
    · exact ⟨[token], by simp [skipEndMark, marked], .inr ⟨token, rfl, marked⟩⟩
    · exact ⟨[], by simp [skipEndMark, marked], .inl rfl⟩

theorem parseOptions_advanced {supported : UInt64} {argv rest : List CString} {args : Args}
    (parsed : parseOptions supported argv = (some args, rest)) :
    ∃ consumed options marks, argv = consumed ++ rest ∧ Advanced supported consumed options marks := by
  obtain ⟨left, ended, rfl, _⟩ := parseOptions_some parsed
  obtain ⟨options, rfl, read⟩ := optionLoop_advanced ended
  obtain ⟨marks, whole, mark⟩ := skipEndMark_advanced left
  refine ⟨flatten options ++ marks, options, marks, ?_, rfl, read, mark⟩
  rw [List.append_assoc, ← whole]

structure Initialised (init : ClientInitArgs) (client : Client) (rest : List CString) : Prop where
  arguments : ∃ consumed options marks, init.argv = client.name :: (consumed ++ rest) ∧
    Advanced init.supportedArgs consumed options marks
  count : init.nbArgs ≠ anyNumber → rest.length = init.nbArgs.toNat
  servers : supports init.supportedArgs totalServers = true →
    client.args.N.toNat ≤ client.server.length
  writes : supports init.supportedArgs totalServers = true →
    supports init.supportedArgs putNeeded = true → client.args.W ≤ client.args.N
  reads : supports init.supportedArgs totalServers = true →
    supports init.supportedArgs getNeeded = true → client.args.R ≤ client.args.N

theorem clientInit_total (q : Qsort) (getNodes : Option NodeList) (init : ClientInitArgs)
    (a : Alloc) (named : 1 ≤ init.argv.length) :
    ∃ error client rest left, clientInit q getNodes init a = .done (error, client, rest, left) ∧
      (error ≠ .none → client = init.client) := by
  cases whole : init.argv with
  | nil => simp [whole] at named
  | cons name argv =>
    simp only [clientInit, whole]
    split
    · exact ⟨_, _, _, _, rfl, fun _ => rfl⟩
    rcases parseOptArgs init.supportedArgs argv a with ⟨_ | args, rest, b⟩
    · exact ⟨_, _, _, _, rfl, fun _ => rfl⟩
    dsimp only
    split
    · exact ⟨_, _, _, _, rfl, fun _ => rfl⟩
    rcases ringAlloc getNodes b with ⟨_ | nodes, c⟩
    · exact ⟨_, _, _, _, rfl, fun _ => rfl⟩
    simp only [ringInit]
    split
    · exact ⟨_, _, _, _, rfl, fun _ => rfl⟩
    · exact ⟨_, _, _, _, rfl, fun error => absurd rfl error⟩

/-- A call fails and leaves the client as it was, or it has established everything its
caller relies on. -/
theorem client_init_all_or_nothing (q : Qsort) (getNodes : Option NodeList)
    (init : ClientInitArgs) (a : Alloc) (counted : init.argc.toNat = init.argv.length)
    (named : 1 ≤ init.argv.length) :
    ∃ error client rest left, clientInit q getNodes init a = .done (error, client, rest, left) ∧
      (error ≠ .none → client = init.client) ∧
      (error = .none → Initialised init client rest) := by
  obtain ⟨error, client, rest, left, done, failed⟩ := clientInit_total q getNodes init a named
  refine ⟨error, client, rest, left, done, failed, ?_⟩
  rintro rfl
  obtain ⟨name, argv, args, _, nodes, whole, parsed, count, _, rfl, room⟩ := clientInit_cases done
  have parsed := parseOptArgs_some parsed
  obtain ⟨consumed, options, marks, rfl, advanced⟩ := parseOptions_advanced parsed
  obtain ⟨_, _, _, writes, reads⟩ := parseOptions_some parsed
  refine ⟨⟨consumed, options, marks, whole, advanced⟩, fun wanted => ?_, room, ?_, ?_⟩
  · have last := count wanted
    have length := congrArg List.length whole
    rw [List.length_cons, List.length_append] at length
    rw [List.length_append, Nat.add_sub_cancel] at last
    have small := init.argc.toNat_lt
    have some : (1 : UInt64) ≤ init.argc := by
      rw [UInt64.le_iff_toNat_le, UInt64.toNat_one]
      omega
    have steps : (UInt64.ofNat consumed.length).toNat = consumed.length := by
      rw [UInt64.toNat_ofNat']
      omega
    have less : UInt64.ofNat consumed.length ≤ init.argc - 1 := by
      rw [UInt64.le_iff_toNat_le, steps, UInt64.toNat_sub_of_le _ _ some, UInt64.toNat_one]
      omega
    rw [last, UInt64.toNat_sub_of_le _ _ less, UInt64.toNat_sub_of_le _ _ some, steps,
      UInt64.toNat_one]
    omega
  · intro total put
    by_contra above
    exact writes ⟨total, put, UInt64.not_le.mp above⟩
  · intro total get
    by_contra above
    exact reads ⟨total, get, UInt64.not_le.mp above⟩

/-- `pps-client-get -n 2 key` on three virtual nodes. -/
theorem client_init_two : Initialised getTwo
    ⟨⟨[103], by decide⟩, sortByRank (virtualNodes 1234 3), ⟨2, 2, 2⟩⟩ [⟨[107], by decide⟩] := by
  obtain ⟨error, client, rest, left, done, _, initialised⟩ := client_init_all_or_nothing
    Qsort.insertion (some (virtualNodes 1234 3)) getTwo [] (by decide) (by decide)
  have accepted : clientInit Qsort.insertion (some (virtualNodes 1234 3)) getTwo [] =
      .done (.none, ⟨⟨[103], by decide⟩, sortByRank (virtualNodes 1234 3), ⟨2, 2, 2⟩⟩,
        [⟨[107], by decide⟩], []) := by decide
  rw [accepted, Outcome.done.injEq, Prod.mk.injEq, Prod.mk.injEq, Prod.mk.injEq] at done
  obtain ⟨rfl, rfl, rfl, _⟩ := done
  exact initialised rfl

end PpsDht

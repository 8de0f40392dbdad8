import PpsDht.ReadQuorum
import PpsDht.ClientInit

/-! `pps-client-cat`: the values of all keys but the last are fetched, appended to one
another in a buffer of one value's size, and put under the last key. Each call over the
network meets an environment and datagrams of its own. -/
namespace PpsDht

open CLib Loop

/-- What one call of `network_get` or `network_put` meets. -/
structure Exchange where
  env : Env
  inbox : Inbox

inductive CatExit where
  | initFailed (error : ErrorCode)
  | tooFewKeys
  | getFailed
  | tooLong
  | putFailed
  | stored
  deriving DecidableEq

def minNbArgs : Nat := 2

/-- The loop over all keys but the last, from call number `i` on: the concatenation, or
how the program ends. -/
def catLoop (sha1 : List UInt8 → Digest) (client : Client) (fuel : Nat) (calls : Nat → Exchange) :
    Nat → List CString → CString → Outcome (CatExit ⊕ CString)
  | _, [], concatenation => .done (.inr concatenation)
  | i, key :: rest, concatenation =>
    (networkGet sha1 client key fuel (calls i).env (calls i).inbox).bind fun
      | (.none, none, _, _) => .fault
      | (.none, some value, _, _) =>
        if maxMsgElemSize ≤ value.strlen + concatenation.strlen then .done (.inl .tooLong)
        else
          match strncat (maxMsgElemSize + 1) concatenation value maxMsgElemSize with
          | none => .fault
          | some concatenation => catLoop sha1 client fuel calls (i + 1) rest concatenation
      | _ => .done (.inl .getFailed)

def catPut (sha1 : List UInt8 → Digest) (client : Client) (fuel : Nat) (call : Exchange)
    (key concatenation : CString) : Outcome (CatExit × Option (CString × CString)) :=
  (networkPut sha1 client key concatenation fuel call.env call.inbox).bind fun
    | (.none, _, _) => .done (.stored, some (key, concatenation))
    | _ => .done (.putFailed, some (key, concatenation))

/-- `main` behind `client_init`: the end of the program, and the pair of its call of
`network_put`, if it came to that. -/
def catKeys (sha1 : List UInt8 → Digest) (client : Client) (fuel : Nat) (calls : Nat → Exchange)
    (keys : List CString) : Outcome (CatExit × Option (CString × CString)) :=
  if keys.length < minNbArgs then .done (.tooFewKeys, none)
  else
    (catLoop sha1 client fuel calls 0 keys.dropLast CString.empty).bind fun
      | .inl exit => .done (exit, none)
      | .inr concatenation =>
        match keys.getLast? with
        | none => .fault
        | some key => catPut sha1 client fuel (calls (keys.length - 1)) key concatenation

/-- `argv` is where `client_init` has left it, so the keys are all that follows. -/
def clientCat (sha1 : List UInt8 → Digest) (q : Qsort) (getNodes : Option NodeList)
    (argv : List CString) (argc : UInt64) (uninitialised : Client) (a : Alloc) (fuel : Nat)
    (calls : Nat → Exchange) : Outcome (CatExit × Option (CString × CString)) :=
  (clientInit q getNodes ⟨argv, argc, anyNumber, totalServers ||| putNeeded ||| getNeeded,
      uninitialised⟩ a).bind fun
    | (.none, client, keys, _) => catKeys sha1 client fuel calls keys
    | (error, _, _, _) => .done (.initFailed error, none)

section Cat

variable (sha1 : List UInt8 → Digest) (client : Client) (fuel : Nat) (calls : Nat → Exchange)

def Obtained : Nat → List CString → List CString → Prop
  | _, [], [] => True
  | i, key :: keys, value :: values =>
    (∃ sent rest, networkGet sha1 client key fuel (calls i).env (calls i).inbox =
      .done (.none, some value, sent, rest)) ∧ Obtained (i + 1) keys values
  | _, _, _ => False

/-- The loop appends all values while they stay below the limit, and never writes outside
the buffer. -/
theorem catLoop_obtained (i : Nat) (keys values : List CString) (concatenation : CString)
    (obtained : Obtained sha1 client fuel calls i keys values)
    (short : concatenation.strlen < maxMsgElemSize) :
    catLoop sha1 client fuel calls i keys concatenation =
      if concatenation.strlen + (CString.join values).strlen < maxMsgElemSize then
        .done (.inr (concatenation.append (CString.join values)))
      else .done (.inl .tooLong) := by
  induction keys generalizing i values concatenation with
  | nil =>
    cases values with
    | nil =>
      rw [CString.join_nil, CString.append_empty, if_pos (by simpa [CString.strlen] using short)]
      rfl
    | cons value values => simp [Obtained] at obtained
  | cons key keys ih =>
    cases values with
    | nil => simp [Obtained] at obtained
    | cons value values =>
      obtain ⟨⟨sent, rest, got⟩, later⟩ := obtained
      simp only [catLoop, got, Outcome.bind, CString.join_cons, CString.strlen_append]
      by_cases full : maxMsgElemSize ≤ value.strlen + concatenation.strlen
      · rw [if_pos full, if_neg (by omega)]
      · have appended : strncat (maxMsgElemSize + 1) concatenation value maxMsgElemSize =
            some (concatenation.append value) := strncat_whole (by omega) (by omega)
        have rest := ih (i + 1) values (concatenation.append value) later
          (by rw [CString.strlen_append]; omega)
        simp only [if_neg full, appended, rest, CString.strlen_append, CString.append_assoc,
          Nat.add_assoc]

/-- A total that `network_put` accepts is put under the last key, a longer one ends the
program without any put, and the buffer is never left. -/
structure StoresConcatenation (keys : List CString) (last : CString) (values : List CString) :
    Prop where
  stores : (CString.join values).strlen ≤ maxMsgElemSize →
    catKeys sha1 client fuel calls (keys ++ [last]) =
      catPut sha1 client fuel (calls keys.length) last (CString.join values)
  refuses : maxMsgElemSize < (CString.join values).strlen →
    catKeys sha1 client fuel calls (keys ++ [last]) = .done (.tooLong, none)
  inside : catLoop sha1 client fuel calls 0 keys CString.empty ≠ .fault

theorem catKeys_obtained {keys values : List CString} (last : CString) (some : keys ≠ [])
    (obtained : Obtained sha1 client fuel calls 0 keys values) :
    catKeys sha1 client fuel calls (keys ++ [last]) =
      if (CString.join values).strlen < maxMsgElemSize then
        catPut sha1 client fuel (calls keys.length) last (CString.join values)
      else .done (.tooLong, none) := by
  have enough : ¬ (keys ++ [last]).length < minNbArgs := by
    have := List.length_pos_iff.mpr some
    rw [List.length_append, List.length_singleton, minNbArgs]
    omega
  have looped := catLoop_obtained sha1 client fuel calls 0 keys values CString.empty obtained
    (by decide)
  have start : CString.empty.strlen = 0 := rfl
  have whole : CString.empty.append (CString.join values) = CString.join values := rfl
  rw [start, Nat.zero_add, whole] at looped
  rw [catKeys, if_neg enough, List.dropLast_concat, looped]
  split
  · simp only [Outcome.bind, List.getLast?_concat, List.length_append, List.length_singleton,
      Nat.add_sub_cancel]
  · rfl

theorem not_stores_of_full {keys values : List CString} (last : CString) (some : keys ≠ [])
    (obtained : Obtained sha1 client fuel calls 0 keys values)
    (full : (CString.join values).strlen = maxMsgElemSize) :
    ¬ StoresConcatenation sha1 client fuel calls keys last values := by
  rintro ⟨stores, _, _⟩
  have put := stores full.le
  rw [catKeys_obtained sha1 client fuel calls last some obtained, if_neg full.ge.not_gt,
    catPut] at put
  cases reply : networkPut sha1 client last (CString.join values) fuel
      (calls keys.length).env (calls keys.length).inbox with
  | done result =>
    obtain ⟨error, sent, rest⟩ := result
    cases error <;> simp [reply, Outcome.bind] at put
  | fault => simp [reply, Outcome.bind] at put
  | outOfFuel => simp [reply, Outcome.bind] at put

/-- The concatenation is stored as meant exactly when the values do not add up to the
longest length that `network_put` accepts. -/
theorem cat_stores_iff {keys values : List CString} (last : CString) (some : keys ≠ [])
    (obtained : Obtained sha1 client fuel calls 0 keys values) :
    StoresConcatenation sha1 client fuel calls keys last values ↔
      (CString.join values).strlen ≠ maxMsgElemSize := by
  have ran := catKeys_obtained sha1 client fuel calls last some obtained
  constructor
  · intro stores full
    exact not_stores_of_full sha1 client fuel calls last some obtained full stores
  · intro apart
    refine ⟨fun short => ?_, fun long => ?_, fun fault => ?_⟩
    · rw [ran, if_pos (by omega)]
    · rw [ran, if_neg (by omega)]
    · rw [catLoop_obtained sha1 client fuel calls 0 keys values CString.empty obtained
        (by decide)] at fault
      split at fault <;> contradiction

end Cat

def loneClient : Client := ⟨CString.empty, [⟨Digest.ofFirst 7, ⟨1, 0⟩, 0⟩], ⟨1, 1, 1⟩⟩

def loneReplies (value : CString) : Nat → Exchange :=
  fun _ => ⟨⟨true, [], []⟩, [some ⟨⟨1, 0⟩, value.bytes⟩]⟩

theorem lone_contacted (key : CString) (short : key.strlen ≤ maxMsgElemSize) :
    Contacted (fun _ => Digest.ofFirst 7) loneClient loneClient.args.R key 3 ⟨true, [], []⟩
      loneClient.server := ⟨short, rfl, rfl, by rfl, by decide, rfl⟩

theorem lone_obtained {key value : CString} (short : key.strlen ≤ maxMsgElemSize)
    (fits : value.strlen ≤ maxMsgElemSize) :
    Obtained (fun _ => Digest.ofFirst 7) loneClient 3 (loneReplies value) 0 [key] [value] := by
  have reply : vote loneClient.server (some ⟨⟨1, 0⟩, value.bytes⟩) = some value :=
    vote_reply (List.mem_singleton_self _) fits
  have counted : incrementAndTest (Htable.empty 1) value 1 [] =
      (true, (Htable.empty 1).put value (counter 1), []) := by
    have missed : (Htable.empty 1).lookup value = none := by
      simp [Htable.lookup, Chain.lookup]
    simp only [incrementAndTest, getHtableValue_nil, missed, addHtableValue_nil]
    rfl
  have looped : getLoop loneClient.server loneClient.args.R loneClient.server.length
      (Htable.empty loneClient.server.length) [some ⟨⟨1, 0⟩, value.bytes⟩] [] =
        (.none, some value, []) := by
    have round := getLoop_cons loneClient.server 1 0 (Htable.empty 1)
      (some ⟨⟨1, 0⟩, value.bytes⟩) [] []
    simp only [reply, counted] at round
    exact round
  have got := networkGet_contacted [some ⟨⟨1, 0⟩, value.bytes⟩] (lone_contacted key short)
  simp only [looped] at got
  exact ⟨⟨_, _, got⟩, trivial⟩

/-- The calls are answered with `a`, `b`, `c` and so on. -/
def loneLetters (i : Nat) : Exchange := loneReplies (.ofMemory [UInt8.ofNat (97 + i)]) i

theorem cat_stores_three :
    StoresConcatenation (fun _ => Digest.ofFirst 7) loneClient 3 loneLetters
      [.ofMemory [107], .ofMemory [108], .ofMemory [109]] (.ofMemory [110])
      [.ofMemory [97], .ofMemory [98], .ofMemory [99]] := by
  have obtained : Obtained (fun _ => Digest.ofFirst 7) loneClient 3 loneLetters 0
      [.ofMemory [107], .ofMemory [108], .ofMemory [109]]
      [.ofMemory [97], .ofMemory [98], .ofMemory [99]] :=
    ⟨(lone_obtained (by decide) (by decide)).1, (lone_obtained (by decide) (by decide)).1,
      (lone_obtained (by decide) (by decide)).1, trivial⟩
  exact (cat_stores_iff _ _ _ _ _ (by decide) obtained).mpr (by decide)

/-- A value of the longest length a message can carry is fetched, and not stored. -/
theorem cat_refuses_longest :
    ¬ ∀ (sha1 : List UInt8 → Digest) (client : Client) (fuel : Nat) (calls : Nat → Exchange)
        (keys values : List CString) (last : CString),
      keys ≠ [] → Obtained sha1 client fuel calls 0 keys values →
        StoresConcatenation sha1 client fuel calls keys last values := by
  intro stores
  obtain ⟨value, longest⟩ := CString.exists_strlen maxMsgElemSize
  have obtained : Obtained (fun _ => Digest.ofFirst 7) loneClient 3 (loneReplies value) 0
      [.ofMemory [107]] [value] := lone_obtained (by decide) longest.le
  have full : (CString.join [value]).strlen = maxMsgElemSize := by
    rw [CString.join_cons, CString.join_nil, CString.append_empty, longest]
  exact not_stores_of_full _ _ _ _ CString.empty (by decide) obtained full
    (stores _ _ _ _ _ _ _ (by decide) obtained)

end PpsDht

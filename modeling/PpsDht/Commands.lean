import PpsDht.ClientPrograms
import PpsDht.ClusterProgress
import PpsDht.Lib.Interaction

/-! The client programs from the command line to the output, as what they ask of the network:
each is a tree of calls, and each has a meaning on the map that the servers stand for. -/
namespace PpsDht

open CLib Loop

inductive Program where
  | get
  | put
  | find
  | substr
  | cat
  deriving DecidableEq

inductive Command where
  | get (key : CString)
  | put (key value : CString)
  | find (key1 key2 : CString)
  | cat (keys : List CString) (last : CString)
  deriving DecidableEq

namespace Program

def nbArgs : Program → UInt64
  | get => 1
  | put => 2
  | find => 2
  | substr => 2
  | cat => anyNumber

def supportedArgs : Program → UInt64
  | get => totalServers ||| getNeeded
  | put => totalServers ||| putNeeded
  | find => totalServers ||| getNeeded ||| putNeeded
  | substr => totalServers ||| getNeeded ||| putNeeded
  | cat => totalServers ||| putNeeded ||| getNeeded

def command : Program → List CString → Option Command
  | get, request :: _ => some (.get request)
  | put, key :: value :: _ => some (.put key value)
  | find, key1 :: key2 :: _ => some (.find key1 key2)
  | substr, key1 :: key2 :: _ => some (.find key1 key2)
  | cat, key :: next :: rest =>
    some (.cat (key :: next :: rest).dropLast ((next :: rest).getLast (List.cons_ne_nil _ _)))
  | _, _ => none

end Program

structure Invocation where
  program : Program
  q : Qsort
  getNodes : Option NodeList
  argv : List CString
  argc : UInt64
  uninitialised : Client
  alloc : Alloc
  fuel : Nat

/-- `"OK\n"` -/
def okMark : List UInt8 := [79, 75, 10]

/-- What `pps-client-cat` prints on its standard output. -/
def CatExit.printed : CatExit → List UInt8
  | .initFailed _ => []
  | .tooFewKeys => []
  | .stored => okMark
  | _ => failLine

namespace Invocation

def init (invocation : Invocation) : ClientInitArgs :=
  ⟨invocation.argv, invocation.argc, invocation.program.nbArgs, invocation.program.supportedArgs,
    invocation.uninitialised⟩

def main (sha1 : List UInt8 → Digest) (calls : Nat → Exchange) : Invocation → Outcome (List UInt8)
  | ⟨.get, q, getNodes, argv, argc, uninitialised, a, fuel⟩ =>
    (clientGet sha1 q getNodes argv argc uninitialised a fuel (calls 0)).bind
      fun finished => .done finished.output
  | ⟨.put, q, getNodes, argv, argc, uninitialised, a, fuel⟩ =>
    (clientPut sha1 q getNodes argv argc uninitialised a fuel (calls 0)).bind
      fun finished => .done finished.output
  | ⟨.find, q, getNodes, argv, argc, uninitialised, a, fuel⟩ =>
    (clientFind sha1 q getNodes argv argc uninitialised a fuel calls).bind
      fun finished => .done finished.output
  | ⟨.substr, q, getNodes, argv, argc, uninitialised, a, fuel⟩ =>
    (clientSubstr sha1 q getNodes argv argc uninitialised a fuel calls).bind
      fun finished => .done finished.output
  | ⟨.cat, q, getNodes, argv, argc, uninitialised, a, fuel⟩ =>
    (clientCat sha1 q getNodes argv argc uninitialised a fuel calls).bind
      fun (exit, _) => .done exit.printed

def Starts (invocation : Invocation) (client : Client) (command : Command) : Prop :=
  ∃ rest left, clientInit invocation.q invocation.getNodes invocation.init invocation.alloc =
    .done (.none, client, rest, left) ∧ invocation.program.command rest = some command

end Invocation

/-! What a program asks of the network. -/

abbrev Answer := ErrorCode × Option CString

abbrev Calls := Interaction Operation Answer (List UInt8)

def answerOf (sha1 : List UInt8 → Digest) (client : Client) (fuel : Nat) (call : Exchange)
    (operation : Operation) : Outcome Answer :=
  (Cluster.perform sha1 client operation fuel call.env call.inbox).bind
    fun (error, value, _) => .done (error, value)

/-- Goes on with a value that was obtained. -/
def withValue (failed : List UInt8) (next : CString → Calls) : Answer → Calls
  | (.none, some value) => next value
  | (.none, none) => .halt .fault
  | _ => .halt (.done failed)

def putEnd : Answer → Calls
  | (.none, _) => .halt (.done okMark)
  | _ => .halt (.done failLine)

/-- The loop of `pps-client-cat` from a key on, and its put. -/
def catCalls (last : CString) : List CString → CString → Calls
  | [], concatenation => .ask (.put last concatenation) putEnd
  | key :: rest, concatenation =>
    .ask (.get key) (withValue failLine fun value =>
      if maxMsgElemSize ≤ value.strlen + concatenation.strlen then .halt (.done failLine)
      else
        match strncat (maxMsgElemSize + 1) concatenation value maxMsgElemSize with
        | none => .halt .fault
        | some concatenation => catCalls last rest concatenation)

def Command.calls : Command → Calls
  | .get key =>
    if maxMsgElemSize < key.strlen then .halt (.done failLine)
    else .ask (.get key) (withValue failLine fun value => .halt (.done (okLine value.bytes)))
  | .put key value =>
    if maxMsgElemSize < key.strlen ∨ maxMsgElemSize < value.strlen then .halt (.done failLine)
    else .ask (.put key value) putEnd
  | .find key1 key2 =>
    if maxMsgElemSize < key1.strlen ∨ maxMsgElemSize < key2.strlen then .halt (.done [])
    else
      .ask (.get key1) (withValue failLine fun value1 =>
        .ask (.get key2) (withValue failLine fun value2 =>
          .halt (.done (okLine (printInt (response value1 value2))))))
  | .cat keys last => catCalls last keys CString.empty

section Main

variable {sha1 : List UInt8 → Digest} {client : Client} {fuel : Nat}

theorem answerOf_get (call : Exchange) (key : CString) :
    answerOf sha1 client fuel call (.get key) =
      (networkGet sha1 client key fuel call.env call.inbox).bind
        fun (error, value, _, _) => .done (error, value) := by
  rw [answerOf, Cluster.perform, Outcome.bind_assoc]
  rfl

theorem answerOf_put (call : Exchange) (key value : CString) :
    answerOf sha1 client fuel call (.put key value) =
      (networkPut sha1 client key value fuel call.env call.inbox).bind
        fun (error, _, _) => .done (error, none) := by
  rw [answerOf, Cluster.perform, Outcome.bind_assoc]
  rfl

theorem findKeys_eq_run (calls : Nat → Exchange) (key1 key2 : CString) :
    ((findKeys sha1 fuel client calls key1 key2).bind fun finished => .done finished.output) =
      (Command.find key1 key2).calls.run fun i => answerOf sha1 client fuel (calls i) := by
  rw [findKeys, Command.calls]
  split
  · rfl
  · simp only [Interaction.run, answerOf_get, Outcome.bind_assoc]
    congr 1
    funext result
    obtain ⟨error, value, sent, rest⟩ := result
    cases error with
    | none =>
      cases value with
      | none => rfl
      | some value =>
        simp only [Outcome.bind_done, withValue, Interaction.run, answerOf_get]
        cases networkGet sha1 client key2 fuel (calls 1).env (calls 1).inbox with
        | done result =>
          obtain ⟨error, value, sent, rest⟩ := result
          cases error <;> cases value <;> rfl
        | _ => rfl
    | _ => rfl

theorem catLoop_eq_run (calls : Nat → Exchange) (last : CString) (i : Nat) (keys : List CString)
    (concatenation : CString) :
    ((catLoop sha1 client fuel calls i keys concatenation).bind fun
      | .inl exit => .done exit.printed
      | .inr concatenation =>
        (catPut sha1 client fuel (calls (i + keys.length)) last concatenation).bind
          fun (exit, _) => .done exit.printed) =
      (catCalls last keys concatenation).run
        fun j => answerOf sha1 client fuel (calls (i + j)) := by
  induction keys generalizing i concatenation with
  | nil =>
    simp only [catLoop, Outcome.bind_done, catPut, catCalls, Interaction.run, answerOf_put]
    cases networkPut sha1 client last concatenation fuel (calls i).env (calls i).inbox with
    | done result =>
      obtain ⟨error, sent, rest⟩ := result
      cases error <;> rfl
    | _ => rfl
  | cons key keys ih =>
    simp only [catLoop, catCalls, Interaction.run, answerOf_get, Nat.add_zero]
    cases networkGet sha1 client key fuel (calls i).env (calls i).inbox with
    | done result =>
      obtain ⟨error, value, sent, rest⟩ := result
      cases error with
      | none =>
        cases value with
        | none => rfl
        | some value =>
          simp only [Outcome.bind_done, withValue]
          split
          · rfl
          · cases strncat (maxMsgElemSize + 1) concatenation value maxMsgElemSize with
            | none => rfl
            | some concatenation =>
              simpa only [List.length_cons, Nat.add_assoc, Nat.add_comm 1] using
                ih (i + 1) concatenation
      | _ => rfl
    | _ => rfl

theorem catKeys_eq_run (calls : Nat → Exchange) {keys : List CString} {command : Command}
    (asked : Program.cat.command keys = some command) :
    ((catKeys sha1 client fuel calls keys).bind fun (exit, _) => .done exit.printed) =
      command.calls.run fun i => answerOf sha1 client fuel (calls i) := by
  rcases keys with _ | ⟨key, _ | ⟨next, rest⟩⟩
  · contradiction
  · contradiction
  obtain rfl := Option.some.inj asked
  have enough : ¬ (key :: next :: rest).length < minNbArgs := by simp [minNbArgs]
  have last : (key :: next :: rest).getLast? =
      some ((next :: rest).getLast (List.cons_ne_nil _ _)) := by
    rw [List.getLast?_cons_cons, List.getLast?_eq_some_getLast]
  have looped := @catLoop_eq_run sha1 client fuel calls
    ((next :: rest).getLast (List.cons_ne_nil _ _)) 0 (key :: next :: rest).dropLast CString.empty
  simp only [Nat.zero_add, List.length_dropLast] at looped
  rw [Command.calls, ← looped, catKeys, if_neg enough, Outcome.bind_assoc]
  congr 1
  funext ended
  cases ended with
  | inl exit => rfl
  | inr concatenation => simp only [last]

/-- A program that is started does what its tree of calls says. -/
theorem Invocation.Starts.main_eq_run {invocation : Invocation} {command : Command}
    (starts : invocation.Starts client command) (calls : Nat → Exchange) :
    invocation.main sha1 calls =
      command.calls.run fun i => answerOf sha1 client invocation.fuel (calls i) := by
  obtain ⟨rest, left, accepted, asked⟩ := starts
  obtain ⟨program, q, getNodes, argv, argc, uninitialised, a, fuel⟩ := invocation
  cases program with
  | get =>
    rcases rest with _ | ⟨request, rest⟩
    · contradiction
    obtain rfl := Option.some.inj asked
    simp only [Invocation.init, Program.nbArgs, Program.supportedArgs] at accepted
    simp only [Invocation.main, clientGet, accepted, Outcome.bind_done, Command.calls]
    by_cases long : maxMsgElemSize < request.strlen
    · simp only [if_pos long]
      rfl
    simp only [if_neg long, Interaction.run, answerOf_get, Outcome.bind_assoc]
    congr 1
    funext result
    obtain ⟨error, value, sent, rest⟩ := result
    cases error <;> cases value <;> rfl
  | put =>
    rcases rest with _ | ⟨key, _ | ⟨value, rest⟩⟩
    · contradiction
    · contradiction
    obtain rfl := Option.some.inj asked
    simp only [Invocation.init, Program.nbArgs, Program.supportedArgs] at accepted
    simp only [Invocation.main, clientPut, accepted, Outcome.bind_done, Command.calls]
    by_cases long : maxMsgElemSize < key.strlen ∨ maxMsgElemSize < value.strlen
    · simp only [if_pos long]
      rfl
    simp only [if_neg long, Interaction.run, answerOf_put, Outcome.bind_assoc]
    congr 1
    funext result
    obtain ⟨error, sent, rest⟩ := result
    cases error <;> rfl
  | find =>
    rcases rest with _ | ⟨key1, _ | ⟨key2, rest⟩⟩
    · contradiction
    · contradiction
    obtain rfl := Option.some.inj asked
    simp only [Invocation.init, Program.nbArgs, Program.supportedArgs] at accepted
    rw [← findKeys_eq_run, Invocation.main, clientFind, accepted, Outcome.bind_done]
  | substr =>
    rcases rest with _ | ⟨key1, _ | ⟨key2, rest⟩⟩
    · contradiction
    · contradiction
    obtain rfl := Option.some.inj asked
    simp only [Invocation.init, Program.nbArgs, Program.supportedArgs] at accepted
    rw [← findKeys_eq_run, Invocation.main, clientSubstr, clientFind, accepted, Outcome.bind_done]
  | cat =>
    simp only [Invocation.init, Program.nbArgs, Program.supportedArgs] at accepted
    rw [← catKeys_eq_run calls asked, Invocation.main, clientCat, accepted, Outcome.bind_done]

end Main

/-! What a command means on a map. -/

def mapAnswer (m : FiniteMap) : Operation → Answer × FiniteMap
  | .get key =>
    match m key with
    | some value => ((.none, some value), m)
    | none => ((.network, none), m)
  | .put key value => ((.none, none), Function.update m key (some value))

/-- What a command prints, and the map behind it. -/
def Command.meaning (m : FiniteMap) : Command → List UInt8 × FiniteMap
  | .get key =>
    match m key with
    | some value => (okLine value.bytes, m)
    | none => (failLine, m)
  | .put key value =>
    if value.strlen ≤ maxMsgElemSize then (okMark, Function.update m key (some value))
    else (failLine, m)
  | .find key1 key2 =>
    match m key1, m key2 with
    | some value1, some value2 => (okLine (printInt (response value1 value2)), m)
    | _, _ => (failLine, m)
  | .cat keys last =>
    match keys.mapM m with
    | some values =>
      if (CString.join values).strlen < maxMsgElemSize then
        (okMark, Function.update m last (some (CString.join values)))
      else (failLine, m)
    | none => (failLine, m)

/-- The keys of a command are short enough, and the calls it can come to are allowed. -/
def Command.Within (allowed : Operation → Prop) : Command → Prop
  | .get key => key.strlen ≤ maxMsgElemSize ∧ allowed (.get key)
  | .put key value => key.strlen ≤ maxMsgElemSize ∧
      (value.strlen ≤ maxMsgElemSize → allowed (.put key value))
  | .find key1 key2 => (key1.strlen ≤ maxMsgElemSize ∧ allowed (.get key1)) ∧
      key2.strlen ≤ maxMsgElemSize ∧ allowed (.get key2)
  | .cat keys last => (∀ key ∈ keys, allowed (.get key)) ∧
      ∀ value, value.strlen < maxMsgElemSize → allowed (.put last value)

section Meaning

variable {allowed : Operation → Prop} {m : FiniteMap}

theorem catCalls_against (last : CString) (keys : List CString) {concatenation : CString}
    (short : concatenation.strlen < maxMsgElemSize) :
    Interaction.against mapAnswer m (catCalls last keys concatenation) =
      match keys.mapM m with
      | some values =>
        if concatenation.strlen + (CString.join values).strlen < maxMsgElemSize then
          (.done okMark, Function.update m last (some (concatenation.append (CString.join values))))
        else (.done failLine, m)
      | none => (.done failLine, m) := by
  induction keys generalizing concatenation with
  | nil =>
    have whole : concatenation.strlen + CString.empty.strlen < maxMsgElemSize := short
    simp only [List.mapM_nil, Option.pure_def, CString.join_nil, CString.append_empty, if_pos whole]
    rfl
  | cons key keys ih =>
    rw [catCalls, Interaction.against, List.mapM_cons]
    cases found : m key with
    | none =>
      simp only [mapAnswer, found]
      rfl
    | some value =>
      simp only [mapAnswer, found, withValue]
      by_cases full : maxMsgElemSize ≤ value.strlen + concatenation.strlen
      · -- no value that follows makes the whole any shorter
        rw [if_pos full, Interaction.against]
        cases keys.mapM m with
        | none => rfl
        | some values =>
          have long : ¬ concatenation.strlen + (CString.join (value :: values)).strlen <
              maxMsgElemSize := by
            rw [CString.join_cons, CString.strlen_append]
            omega
          exact (if_neg long).symm
      · have appended : strncat (maxMsgElemSize + 1) concatenation value maxMsgElemSize =
            some (concatenation.append value) := strncat_whole (by omega) (by omega)
        have short' : (concatenation.append value).strlen < maxMsgElemSize := by
          rw [CString.strlen_append]
          omega
        simp only [if_neg full, appended, ih short']
        cases keys.mapM m with
        | none => rfl
        | some values =>
          simp only [CString.strlen_append, CString.append_assoc, Nat.add_assoc, CString.join_cons,
            Option.pure_def, Option.bind_eq_bind, Option.bind_some]

theorem Command.calls_against {command : Command} (within : command.Within allowed) :
    Interaction.against mapAnswer m command.calls =
      (.done (command.meaning m).1, (command.meaning m).2) := by
  cases command with
  | get key =>
    rw [Command.calls, if_neg (Nat.not_lt.mpr within.1), Interaction.against, Command.meaning]
    cases found : m key with
    | none => simp only [mapAnswer, found, withValue, Interaction.against]
    | some value => simp only [mapAnswer, found, withValue, Interaction.against]
  | put key value =>
    rw [Command.calls, Command.meaning]
    by_cases fits : value.strlen ≤ maxMsgElemSize
    · rw [if_neg (by have := within.1; omega), if_pos fits]
      rfl
    · rw [if_pos (.inr (Nat.lt_of_not_le fits)), if_neg fits]
      rfl
  | find key1 key2 =>
    obtain ⟨⟨short1, _⟩, short2, _⟩ := within
    rw [Command.calls, if_neg (by omega), Interaction.against, Command.meaning]
    cases found1 : m key1 with
    | none => simp only [mapAnswer, found1, withValue, Interaction.against]
    | some value1 =>
      cases found2 : m key2 with
      | none => simp only [mapAnswer, found1, found2, withValue, Interaction.against]
      | some value2 => simp only [mapAnswer, found1, found2, withValue, Interaction.against]
  | cat keys last =>
    rw [Command.calls, catCalls_against last keys (by decide), Command.meaning]
    cases keys.mapM m with
    | none => rfl
    | some values =>
      have start : CString.empty.strlen = 0 := rfl
      simp only [start, Nat.zero_add]
      split <;> rfl

theorem within_catCalls {last : CString} {keys : List CString} {concatenation : CString}
    (short : concatenation.strlen < maxMsgElemSize) (gets : ∀ key ∈ keys, allowed (.get key))
    (puts : ∀ value, value.strlen < maxMsgElemSize → allowed (.put last value)) :
    (catCalls last keys concatenation).Within allowed mapAnswer m := by
  induction keys generalizing concatenation with
  | nil => exact ⟨puts _ short, trivial⟩
  | cons key keys ih =>
    refine ⟨gets key List.mem_cons_self, ?_⟩
    cases found : m key with
    | none =>
      simp only [mapAnswer, found]
      trivial
    | some value =>
      simp only [mapAnswer, found, withValue]
      split
      · trivial
      next fits =>
        have appended : strncat (maxMsgElemSize + 1) concatenation value maxMsgElemSize =
            some (concatenation.append value) := strncat_whole (by omega) (by omega)
        simp only [appended]
        refine ih ?_ fun key member => gets key (List.mem_cons_of_mem _ member)
        rw [CString.strlen_append]
        omega

theorem Command.within_calls {command : Command} (within : command.Within allowed) :
    command.calls.Within allowed mapAnswer m := by
  cases command with
  | get key =>
    rw [Command.calls, if_neg (Nat.not_lt.mpr within.1)]
    refine ⟨within.2, ?_⟩
    cases found : m key <;> simp only [mapAnswer, found] <;> trivial
  | put key value =>
    rw [Command.calls]
    split
    · trivial
    next short => exact ⟨within.2 (by omega), trivial⟩
  | find key1 key2 =>
    obtain ⟨⟨_, first⟩, _, second⟩ := within
    rw [Command.calls]
    split
    · trivial
    refine ⟨first, ?_⟩
    cases found1 : m key1 with
    | none =>
      simp only [mapAnswer, found1]
      trivial
    | some value1 =>
      simp only [mapAnswer, found1, withValue]
      refine ⟨second, ?_⟩
      cases found2 : m key2 <;> simp only [mapAnswer, found2] <;> trivial
  | cat keys last => exact within_catCalls (by decide) within.1 within.2

end Meaning

end PpsDht

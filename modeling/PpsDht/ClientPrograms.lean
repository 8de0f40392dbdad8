import PpsDht.ClientCat
import PpsDht.Server

/-! `pps-client-get`, `pps-client-put`, `pps-client-find` and `pps-client-substr`: what they
print, and what they leave at the servers. Each call over the network meets an environment and
datagrams of its own. -/
namespace PpsDht

open CLib Loop

/-- What `main` returns: an error code, `ERR_NONE` for 0, or 1. -/
inductive Status where
  | error (error : ErrorCode)
  | one
  deriving DecidableEq

structure Finished where
  output : List UInt8
  status : Status
  sent : List Datagram
  deriving DecidableEq

/-- `"OK %s\n"` -/
def okLine (text : List UInt8) : List UInt8 := [79, 75, 32] ++ text ++ [10]

/-- `"FAIL\n"` -/
def failLine : List UInt8 := [70, 65, 73, 76, 10]

/-- `%d` -/
def printInt (n : Int) : List UInt8 :=
  if n < 0 then 45 :: Decimal.print n.natAbs else Decimal.print n.toNat

section Programs

variable (sha1 : List UInt8 → Digest) (q : Qsort) (getNodes : Option NodeList)
  (argv : List CString) (argc : UInt64) (uninitialised : Client) (a : Alloc) (fuel : Nat)

/-- `argv[0]` is NULL when nothing is left of the arguments. -/
def clientGet (call : Exchange) : Outcome Finished :=
  (clientInit q getNodes ⟨argv, argc, 1, totalServers ||| getNeeded, uninitialised⟩ a).bind fun
    | (.none, client, request :: _, _) =>
      if maxMsgElemSize < request.strlen then .done ⟨failLine, .error .badParameter, []⟩
      else
        (networkGet sha1 client request fuel call.env call.inbox).bind fun
          | (.none, some value, sent, _) => .done ⟨okLine value.bytes, .error .none, sent⟩
          | (.none, none, _, _) => .fault
          | (_, _, sent, _) => .done ⟨failLine, .error .none, sent⟩
    | (.none, _, [], _) => .fault
    | (error, _, _, _) => .done ⟨[], .error error, []⟩

def clientPut (call : Exchange) : Outcome Finished :=
  (clientInit q getNodes ⟨argv, argc, 2, totalServers ||| putNeeded, uninitialised⟩ a).bind fun
    | (.none, client, key :: value :: _, _) =>
      if maxMsgElemSize < key.strlen ∨ maxMsgElemSize < value.strlen then
        .done ⟨failLine, .error .badParameter, []⟩
      else
        (networkPut sha1 client key value fuel call.env call.inbox).bind fun
          | (.none, sent, _) => .done ⟨[79, 75, 10], .error .none, sent⟩
          | (_, sent, _) => .done ⟨failLine, .error .none, sent⟩
    | (.none, _, _, _) => .fault
    | (error, _, _, _) => .done ⟨[], .error error, []⟩

/-- `(int) (position - value1)`, or -1. -/
def response (value1 value2 : CString) : Int :=
  match strstr value1 value2 with
  | none => -1
  | some position => (position : Int).bmod (2 ^ 32)

/-- `main` of `client-find.c` behind `client_init`. -/
def findKeys (client : Client) (calls : Nat → Exchange) (key1 key2 : CString) : Outcome Finished :=
  if maxMsgElemSize < key1.strlen ∨ maxMsgElemSize < key2.strlen then
    .done ⟨[], .error .badParameter, []⟩
  else
    (networkGet sha1 client key1 fuel (calls 0).env (calls 0).inbox).bind fun
      | (.none, some value1, sent1, _) =>
        (networkGet sha1 client key2 fuel (calls 1).env (calls 1).inbox).bind fun
          | (.none, some value2, sent2, _) =>
            .done ⟨okLine (printInt (response value1 value2)), .error .none, sent1 ++ sent2⟩
          | (.none, none, _, _) => .fault
          | (_, _, sent2, _) => .done ⟨failLine, .one, sent1 ++ sent2⟩
      | (.none, none, _, _) => .fault
      | (_, _, sent1, _) => .done ⟨failLine, .one, sent1⟩

def clientFind (calls : Nat → Exchange) : Outcome Finished :=
  (clientInit q getNodes ⟨argv, argc, 2, totalServers ||| getNeeded ||| putNeeded, uninitialised⟩
      a).bind fun
    | (.none, client, key1 :: key2 :: _, _) => findKeys sha1 fuel client calls key1 key2
    | (.none, _, _, _) => .fault
    | (error, _, _, _) => .done ⟨[], .error error, []⟩

/-- `client-substr.c` has the text of `client-find.c`. -/
def clientSubstr (calls : Nat → Exchange) : Outcome Finished :=
  clientFind sha1 q getNodes argv argc uninitialised a fuel calls

end Programs

/-! A call of `network_get`. -/

section Call

variable {sha1 : List UInt8 → Digest} {client : Client} {key : CString} {fuel : Nat} {env : Env}
  {inbox rest : Inbox} {error : ErrorCode} {value : Option CString} {sent : List Datagram}

theorem receiveMessage_length {servers : NodeList} {outcome : Option Datagram}
    {bytes : List UInt8} (heard : receiveMessage servers outcome = (.none, bytes)) :
    bytes.length ≤ maxMsgElemSize := by
  cases outcome with
  | none => simp [receiveMessage] at heard
  | some datagram =>
    simp only [receiveMessage] at heard
    split at heard
    · obtain ⟨_, rfl⟩ := Prod.mk.inj heard
      exact List.length_take_le _ _
    · simp at heard

theorem getLoop_value {servers : NodeList} {R : UInt64} {rounds : Nat} {table : Htable}
    {a : Alloc} (ended : getLoop servers R rounds table inbox a = (.none, value, rest)) :
    ∃ v, value = some v ∧ v.strlen ≤ maxMsgElemSize := by
  fun_induction getLoop servers R rounds table inbox a with
  | case1 => simp at ended
  | case2 _ _ _ _ _ _ _ bytes heard =>
    simp only [Prod.mk.injEq, true_and] at ended
    obtain ⟨rfl, _⟩ := ended
    have part : (CString.ofMemory bytes).strlen ≤ bytes.length :=
      (List.takeWhile_prefix _).length_le
    exact ⟨_, rfl, part.trans (receiveMessage_length heard)⟩
  | case3 _ _ _ _ _ _ _ _ _ _ _ _ _ ih => exact ih ended
  | case4 _ _ _ _ _ _ _ _ _ _ ih => exact ih ended
  | case5 _ _ _ _ _ _ _ _ ih => exact ih ended

/-- What a call that returns has sent, and the value of one that succeeds. -/
structure GetReturned (key : CString) (error : ErrorCode) (value : Option CString)
    (sent : List Datagram) : Prop where
  sent : ∀ datagram ∈ sent, datagram.payload = getMessage key
  value : error = .none → ∃ v, value = some v ∧ v.strlen ≤ maxMsgElemSize

theorem networkGet_returned
    (ended : networkGet sha1 client key fuel env inbox = .done (error, value, sent, rest)) :
    GetReturned key error value sent := by
  have silent {failed : ErrorCode} (other : failed ≠ .none) {left : Inbox}
      (same : Outcome.done (failed, none, [], left) = .done (error, value, sent, rest)) :
      GetReturned key error value sent := by
    simp only [Outcome.done.injEq, Prod.mk.injEq] at same
    obtain ⟨rfl, rfl, rfl, _⟩ := same
    exact ⟨by simp, fun none => absurd none other⟩
  unfold networkGet at ended
  split at ended
  · exact silent (by decide) ended
  split at ended
  · exact silent (by decide) ended
  split at ended
  · exact silent (by decide) ended
  split at ended
  · exact silent (by decide) ended
  obtain ⟨⟨_ | servers, b⟩, _, ended⟩ := Outcome.bind_eq_done_iff.mp ended
  · contradiction
  dsimp only at ended
  split at ended
  · exact silent (by decide) ended
  obtain ⟨reached, _, datagrams⟩ := sendMessages_sent (getMessage key) servers env.sends
  rcases sends : sendMessages (getMessage key) servers env.sends with ⟨failed, sent'⟩
  rw [sends] at datagrams ended
  have asked : ∀ datagram ∈ sent', datagram.payload = getMessage key := by
    rw [show sent' = _ from datagrams]
    simp
  cases failed with
  | none =>
    simp only [Outcome.done.injEq, Prod.mk.injEq] at ended
    obtain ⟨rfl, rfl, rfl, _⟩ := ended
    exact ⟨asked, fun none => getLoop_value (Prod.ext none rfl)⟩
  | _ =>
    simp only [Outcome.done.injEq, Prod.mk.injEq] at ended
    obtain ⟨rfl, rfl, rfl, _⟩ := ended
    exact ⟨asked, fun none => by contradiction⟩

end Call

def Gets (sha1 : List UInt8 → Digest) (client : Client) (fuel : Nat) (call : Exchange)
    (key value : CString) : Prop :=
  ∃ sent rest, networkGet sha1 client key fuel call.env call.inbox =
    .done (.none, some value, sent, rest)

inductive Position (value1 value2 : CString) : Int → Prop
  | found (i : Nat) (here : value2.bytes <+: value1.bytes.drop i)
      (first : ∀ j < i, ¬ value2.bytes <+: value1.bytes.drop j) : Position value1 value2 i
  | absent (nowhere : ¬ value2.bytes <:+: value1.bytes) : Position value1 value2 (-1)

/-- A place in a value of accepted length fits an `int`. -/
theorem response_position {value1 : CString} (short : value1.strlen ≤ maxMsgElemSize)
    (value2 : CString) : Position value1 value2 (response value1 value2) := by
  rw [response]
  cases found : strstr value1 value2 with
  | none => exact .absent ((strstr_eq_none_iff ..).mp found)
  | some i =>
    obtain ⟨inside, here, first⟩ := (strstr_eq_some_iff ..).mp found
    rw [maxMsgElemSize] at short
    have kept : (i : Int).bmod (2 ^ 32) = i := by
      rw [Int.bmod_def]
      omega
    dsimp only
    rw [kept]
    exact .found i here first

/-- How `pps-client-find` ends with a client and two keys. It prints a place exactly when it
has obtained both values. -/
inductive FindEnd (sha1 : List UInt8 → Digest) (client : Client) (fuel : Nat)
    (calls : Nat → Exchange) (key1 key2 : CString) : Finished → Prop
  | tooLong (long : maxMsgElemSize < key1.strlen ∨ maxMsgElemSize < key2.strlen) :
      FindEnd sha1 client fuel calls key1 key2 ⟨[], .error .badParameter, []⟩
  | found {value1 value2 : CString} {n : Int} {sent : List Datagram}
      (first : Gets sha1 client fuel (calls 0) key1 value1)
      (second : Gets sha1 client fuel (calls 1) key2 value2) (position : Position value1 value2 n) :
      FindEnd sha1 client fuel calls key1 key2 ⟨okLine (printInt n), .error .none, sent⟩
  | failed {sent : List Datagram}
      (missed : (∀ value, ¬ Gets sha1 client fuel (calls 0) key1 value) ∨
        ∀ value, ¬ Gets sha1 client fuel (calls 1) key2 value) :
      FindEnd sha1 client fuel calls key1 key2 ⟨failLine, .one, sent⟩

def Asks (payload : List UInt8) : Prop :=
  ∃ key : CString, key.strlen ≤ maxMsgElemSize ∧ payload = getMessage key

structure FindReturned (sha1 : List UInt8 → Digest) (client : Client) (fuel : Nat)
    (calls : Nat → Exchange) (key1 key2 : CString) (finished : Finished) : Prop where
  ends : FindEnd sha1 client fuel calls key1 key2 finished
  sent : ∀ datagram ∈ finished.sent, Asks datagram.payload

section Find

variable {sha1 : List UInt8 → Digest} {client : Client} {fuel : Nat} {calls : Nat → Exchange}
  {key1 key2 : CString}

theorem not_gets {call : Exchange} {key : CString} {error : ErrorCode} {value : Option CString}
    {sent : List Datagram} {rest : Inbox} (other : error ≠ .none)
    (returned : networkGet sha1 client key fuel call.env call.inbox =
      .done (error, value, sent, rest)) (v : CString) : ¬ Gets sha1 client fuel call key v := by
  rintro ⟨_, _, obtained⟩
  rw [returned] at obtained
  simp only [Outcome.done.injEq, Prod.mk.injEq] at obtained
  exact other obtained.1

theorem findKeys_returned {finished : Finished}
    (ended : findKeys sha1 fuel client calls key1 key2 = .done finished) :
    FindReturned sha1 client fuel calls key1 key2 finished := by
  rw [findKeys] at ended
  split at ended
  next long =>
    obtain rfl := Outcome.done.inj ended
    exact ⟨.tooLong long, by simp⟩
  next short =>
  obtain ⟨short1, short2⟩ := not_or.mp short
  obtain ⟨⟨error1, value1, sent1, rest1⟩, first, ended⟩ := Outcome.bind_eq_done_iff.mp ended
  obtain ⟨asked1, obtained1⟩ := networkGet_returned first
  have asked1 (datagram) (member : datagram ∈ sent1) : Asks datagram.payload :=
    ⟨key1, Nat.not_lt.mp short1, asked1 datagram member⟩
  by_cases fine1 : error1 = .none
  · subst fine1
    obtain ⟨v1, rfl, fits1⟩ := obtained1 rfl
    obtain ⟨⟨error2, value2, sent2, rest2⟩, second, ended⟩ := Outcome.bind_eq_done_iff.mp ended
    obtain ⟨asked2, obtained2⟩ := networkGet_returned second
    have asked (datagram) (member : datagram ∈ sent1 ++ sent2) : Asks datagram.payload :=
      (List.mem_append.mp member).elim (asked1 datagram)
        fun member => ⟨key2, Nat.not_lt.mp short2, asked2 datagram member⟩
    by_cases fine2 : error2 = .none
    · subst fine2
      obtain ⟨v2, rfl, _⟩ := obtained2 rfl
      obtain rfl := Outcome.done.inj ended
      exact ⟨.found ⟨_, _, first⟩ ⟨_, _, second⟩ (response_position fits1 v2), asked⟩
    · have missed := not_gets fine2 second
      cases error2 with
      | none => exact absurd rfl fine2
      | _ =>
        obtain rfl := Outcome.done.inj ended
        exact ⟨.failed (.inr missed), asked⟩
  · have missed := not_gets fine1 first
    cases error1 with
    | none => exact absurd rfl fine1
    | _ =>
      obtain rfl := Outcome.done.inj ended
      exact ⟨.failed (.inl missed), asked1⟩

end Find

section Programs

variable {sha1 : List UInt8 → Digest} {q : Qsort} {getNodes : Option NodeList}
  {argv : List CString} {argc : UInt64} {uninitialised : Client} {a : Alloc} {fuel : Nat}
  {calls : Nat → Exchange}

theorem serve_asks {payload : List UInt8} (asks : Asks payload) {t t' : Htable}
    {replies : List (List UInt8)} (served : serve fuel t payload a = .done (t', replies)) :
    t' = t := by
  obtain ⟨key, short, rfl⟩ := asks
  rw [serve, receiveRequest_getMessage short] at served
  by_cases empty : key = CString.empty
  · rw [if_pos empty] at served
    exact (Prod.mk.inj (Outcome.done.inj served)).1.symm
  · rw [if_neg empty] at served
    exact (Prod.mk.inj (Outcome.done.inj served)).1.symm

/-- `pps-client-substr` stores nothing: whatever it meets, no datagram that it sends changes
the table of a server. -/
theorem client_substr_stores_nothing {finished : Finished}
    (ended : clientSubstr sha1 q getNodes argv argc uninitialised a fuel calls = .done finished) :
    ∀ datagram ∈ finished.sent, ∀ more t b t' replies,
      serve more t datagram.payload b = .done (t', replies) → t' = t := by
  intro datagram member more t b t' replies served
  obtain ⟨⟨error, client, rest, left⟩, _, ended⟩ := Outcome.bind_eq_done_iff.mp ended
  cases error with
  | none =>
    rcases rest with _ | ⟨key1, _ | ⟨key2, rest⟩⟩
    · contradiction
    · contradiction
    · exact serve_asks ((findKeys_returned ended).sent datagram member) served
  | _ =>
    obtain rfl := Outcome.done.inj ended
    simp at member

end Programs

/-- `pps-client-find -n 1 -w 1 -r 1 k k` -/
def findArgv : List CString :=
  [.ofMemory [102], .ofMemory [45, 110], .ofMemory [49], .ofMemory [45, 119], .ofMemory [49],
    .ofMemory [45, 114], .ofMemory [49], .ofMemory [107], .ofMemory [107]]

theorem found_lone : clientFind (fun _ => Digest.ofFirst 7) .insertion (some loneClient.server)
    findArgv 9 loneClient [] 3 (loneReplies (.ofMemory [98])) =
      .done ⟨okLine [48], .error .none, [⟨⟨1, 0⟩, [107]⟩, ⟨⟨1, 0⟩, [107]⟩]⟩ := by
  decide +kernel

theorem client_substr_stores_nothing_lone : ∃ t' replies,
    serve 0 ((Htable.empty 1).put (.ofMemory [107]) (.ofMemory [98])) [107] [] =
      .done (t', replies) ∧ t' = (Htable.empty 1).put (.ofMemory [107]) (.ofMemory [98]) := by
  have served : serve 0 ((Htable.empty 1).put (.ofMemory [107]) (.ofMemory [98])) [107] [] =
      .done ((Htable.empty 1).put (.ofMemory [107]) (.ofMemory [98]), [[98]]) := by decide +kernel
  exact ⟨_, _, served, client_substr_stores_nothing found_lone ⟨⟨1, 0⟩, [107]⟩ List.mem_cons_self
    0 _ [] _ _ served⟩

end PpsDht

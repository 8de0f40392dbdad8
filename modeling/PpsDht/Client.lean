import PpsDht.RingWalk
import PpsDht.Lib.Decimal

/-! Options and the start of a client: `args.c` and `client.c`. The argument vector is
the list of its strings before the terminating NULL; stepping over that NULL is a fault.
What reading the server file gives is a parameter. -/
namespace PpsDht

open CLib Loop FirstSeen

structure Args where
  N : UInt64
  W : UInt64
  R : UInt64
  deriving DecidableEq

def Args.default : Args := ⟨3, 2, 2⟩

def totalServers : UInt64 := 1

def getNeeded : UInt64 := 2

def putNeeded : UInt64 := 4

def supports (supported kind : UInt64) : Bool := supported &&& kind != 0

/-- `strncmp(token, option, 2) == 0` -/
def startsWith (token : CString) (option : List UInt8) : Bool :=
  decide (strncmp 2 token.bytes option = 0)

def isEndMark (token : CString) : Bool := startsWith token [45, 45]

/-- Where the number after an option goes; none for a token that is no supported option. -/
def optionSetter (supported : UInt64) (token : CString) : Option (Args → UInt64 → Args) :=
  if supports supported totalServers && startsWith token [45, 110] then
    some fun result n => { result with N := n }
  else if supports supported putNeeded && startsWith token [45, 119] then
    some fun result n => { result with W := n }
  else if supports supported getNeeded && startsWith token [45, 114] then
    some fun result n => { result with R := n }
  else none

/-- The loop of `parse_opt_args`, with what is left of the arguments. -/
def optionLoop (supported : UInt64) (result : Args) : List CString → Option Args × List CString
  | [] => (some result, [])
  | token :: rest =>
    if isEndMark token then (some result, token :: rest)
    else
      match optionSetter supported token with
      | none => (some result, token :: rest)
      | some set =>
        match rest with
        | [] => (none, [])
        | number :: rest =>
          match Decimal.scan number.bytes with
          | none => (none, number :: rest)
          | some n => optionLoop supported (set result n) rest

def skipEndMark : List CString → List CString
  | [] => []
  | token :: rest => if isEndMark token then rest else token :: rest

/-- `parse_opt_args` once its result is allocated. -/
def parseOptions (supported : UInt64) (argv : List CString) : Option Args × List CString :=
  match optionLoop supported Args.default argv with
  | (none, rest) => (none, rest)
  | (some result, rest) =>
    let rest := skipEndMark rest
    if supports supported totalServers && supports supported putNeeded && result.N < result.W then
      (none, rest)
    else if supports supported totalServers && supports supported getNeeded
        && result.N < result.R then
      (none, rest)
    else (some result, rest)

def parseOptArgs (supported : UInt64) (argv : List CString) (a : Alloc) :
    Option Args × List CString × Alloc :=
  match malloc a with
  | (false, a) => (none, argv, a)
  | (true, a) =>
    match parseOptions supported argv with
    | (result, rest) => (result, rest, a)

structure Client where
  name : CString
  server : NodeList
  args : Args
  deriving DecidableEq

structure ClientInitArgs where
  argv : List CString
  argc : UInt64
  nbArgs : UInt64
  supportedArgs : UInt64
  client : Client

/-- An `nb_args` of `SIZE_MAX` allows any number of arguments. -/
def anyNumber : UInt64 := UInt64.ofNat sizeMax

/-- Returns the error, the client and the arguments left at `*argv`. -/
def clientInit (q : Qsort) (getNodes : Option NodeList) (init : ClientInitArgs) (a : Alloc) :
    Outcome (ErrorCode × Client × List CString × Alloc) :=
  match init.argv with
  | [] => .fault
  | name :: argv =>
    let argc := init.argc - 1
    if init.nbArgs ≠ anyNumber ∧ argc < init.nbArgs then
      .done (.badParameter, init.client, argv, a)
    else
      match parseOptArgs init.supportedArgs argv a with
      | (none, rest, a) => .done (.badParameter, init.client, rest, a)
      | (some args, rest, a) =>
        let argc := argc - UInt64.ofNat (argv.length - rest.length)
        if init.nbArgs ≠ anyNumber ∧ init.nbArgs ≠ argc then
          .done (.badParameter, init.client, rest, a)
        else
          match ringAlloc getNodes a with
          | (server, a) =>
            match ringInit q server with
            | (.none, some server) =>
              if supports init.supportedArgs totalServers && server.length < args.N.toNat then
                .done (.badParameter, init.client, rest, a)
              else .done (.none, ⟨name, server, args⟩, rest, a)
            | (error, _) => .done (error, init.client, rest, a)

theorem parseOptArgs_some {supported : UInt64} {argv rest : List CString} {args : Args}
    {a left : Alloc} (parsed : parseOptArgs supported argv a = (some args, rest, left)) :
    parseOptions supported argv = (some args, rest) := by
  unfold parseOptArgs at parsed
  split at parsed
  · simp at parsed
  · simp only [Prod.mk.injEq] at parsed
    exact Prod.ext parsed.1 parsed.2.1

theorem ringAlloc_some {getNodes : Option NodeList} {nodes : NodeList} {a left : Alloc}
    (allocated : ringAlloc getNodes a = (some nodes, left)) : getNodes = some nodes := by
  unfold ringAlloc at allocated
  split at allocated
  · simp at allocated
  · exact (Prod.mk.inj allocated).1

structure Accepted (q : Qsort) (getNodes : Option NodeList) (init : ClientInitArgs)
    (client : Client) (rest : List CString) : Prop where
  name : init.argv.head? = some client.name
  parsed : parseOptions init.supportedArgs init.argv.tail = (some client.args, rest)
  server : ∃ nodes, getNodes = some nodes ∧ client.server = q.sort nodes
  room : supports init.supportedArgs totalServers = true →
    client.args.N.toNat ≤ client.server.length

/-- Everything a successful call has done: the options, the count of what they leave, and the
ring. -/
theorem clientInit_cases {q : Qsort} {getNodes : Option NodeList} {init : ClientInitArgs}
    {client : Client} {rest : List CString} {a left : Alloc}
    (done : clientInit q getNodes init a = .done (.none, client, rest, left)) :
    ∃ name argv args b nodes, init.argv = name :: argv ∧
      parseOptArgs init.supportedArgs argv a = (some args, rest, b) ∧
      (init.nbArgs ≠ anyNumber →
        init.nbArgs = init.argc - 1 - UInt64.ofNat (argv.length - rest.length)) ∧
      ringAlloc getNodes b = (some nodes, left) ∧ client = ⟨name, q.sort nodes, args⟩ ∧
      (supports init.supportedArgs totalServers = true → args.N.toNat ≤ (q.sort nodes).length) := by
  unfold clientInit at done
  cases whole : init.argv with
  | nil => simp [whole] at done
  | cons name argv =>
    simp only [whole] at done
    split at done
    · simp at done
    rcases parsed : parseOptArgs init.supportedArgs argv a with ⟨_ | args, tail, b⟩
    · simp [parsed] at done
    simp only [parsed] at done
    split at done
    · simp at done
    next counted =>
      rcases allocated : ringAlloc getNodes b with ⟨_ | nodes, c⟩
      · simp [allocated, ringInit] at done
      simp only [allocated, ringInit] at done
      split at done
      · simp at done
      next fits =>
        simp only [Outcome.done.injEq, Prod.mk.injEq, true_and] at done
        obtain ⟨rfl, rfl, rfl⟩ := done
        refine ⟨name, argv, args, b, nodes, rfl, parsed, fun wanted => ?_, allocated, rfl,
          fun supported => by simpa [supported] using fits⟩
        by_contra other
        exact counted ⟨wanted, other⟩

theorem clientInit_accepted {q : Qsort} {getNodes : Option NodeList} {init : ClientInitArgs}
    {client : Client} {rest : List CString} {a left : Alloc}
    (done : clientInit q getNodes init a = .done (.none, client, rest, left)) :
    Accepted q getNodes init client rest := by
  obtain ⟨name, argv, args, b, nodes, whole, parsed, _, allocated, rfl, room⟩ := clientInit_cases done
  refine ⟨by simp [whole], ?_, ⟨nodes, ringAlloc_some allocated, rfl⟩, room⟩
  rw [whole]
  exact parseOptArgs_some parsed

/-- From every start the collecting loop ends with as many nodes as the client's `N`,
on as many servers. -/
def LocatesReplicas (client : Client) : Prop :=
  ∀ start < client.server.length, ∃ list,
    Returns (collectStep client.server client.args.N.toNat) ⟨start, [], []⟩ (some list, []) ∧
      list.length = client.args.N.toNat ∧ (list.map Node.addr).Nodup

theorem locatesReplicas_iff {client : Client} (some : 0 < client.server.length) :
    LocatesReplicas client ↔ client.args.N.toNat ≤ distinct Node.addr client.server := by
  constructor
  · intro locates
    obtain ⟨list, returns, _⟩ := locates 0 some
    exact ((collect_returns_iff some list).mp ⟨_, _, returns⟩).1
  · intro enough start inside
    refine ⟨_, ⟨_, collect_within_round inside enough⟩, ?_, ?_⟩
    · rw [List.length_take, length_fresh, distinct_rotate]
      exact Nat.min_eq_left enough
    · rw [List.map_take]
      exact (nodup_map_fresh (f := Node.addr) [] _).sublist (List.take_sublist _ _)

/-- An accepted client that asks for at least one server locates its replicas exactly
when the server file names as many different servers as it asks for. -/
theorem accepted_client_locates_iff (q : Qsort) {nodes : NodeList} {init : ClientInitArgs}
    {client : Client} {args : Args} {rest : List CString} {a left : Alloc}
    (accepted : clientInit q (some nodes) init a = .done (.none, client, rest, left))
    (counted : supports init.supportedArgs totalServers = true)
    (parsed : (parseOptions init.supportedArgs init.argv.tail).1 = some args)
    (positive : 1 ≤ args.N.toNat) :
    LocatesReplicas client ↔ args.N.toNat ≤ distinct Node.addr nodes := by
  have made := clientInit_accepted accepted
  obtain ⟨_, same, server⟩ := made.server
  obtain rfl := Option.some.inj same
  have requested : client.args = args := by
    rw [made.parsed] at parsed
    exact Option.some.inj parsed
  have room : args.N.toNat ≤ client.server.length := requested ▸ made.room counted
  have servers : distinct Node.addr client.server = distinct Node.addr nodes := by
    rw [server]
    exact distinct_perm (q.perm nodes)
  rw [locatesReplicas_iff (Nat.lt_of_lt_of_le positive room), requested, servers]

/-- Virtual nodes 1 to `count` of the server at port `port` of one host. -/
def virtualNodes (port : UInt16) (count : Nat) : NodeList :=
  (List.range count).map fun i => ⟨Digest.ofFirst (UInt8.ofNat i), ⟨port, 16777343⟩, 0⟩

/-- `pps-client-get -n 2 key` -/
def getTwo : ClientInitArgs where
  argv := [⟨[103], by decide⟩, ⟨[45, 110], by decide⟩, ⟨[50], by decide⟩, ⟨[107], by decide⟩]
  argc := 4
  nbArgs := 1
  supportedArgs := totalServers ||| getNeeded
  client := ⟨CString.empty, [], ⟨0, 0, 0⟩⟩

theorem accepted_client_locates_two :
    LocatesReplicas ⟨⟨[103], by decide⟩,
      sortByRank (virtualNodes 1234 2 ++ virtualNodes 1235 1), ⟨2, 2, 2⟩⟩ := by
  have accepted : clientInit Qsort.insertion (some (virtualNodes 1234 2 ++ virtualNodes 1235 1))
      getTwo [] = .done (.none, ⟨⟨[103], by decide⟩,
        sortByRank (virtualNodes 1234 2 ++ virtualNodes 1235 1), ⟨2, 2, 2⟩⟩,
        [⟨[107], by decide⟩], []) := by decide
  have parsed : (parseOptions getTwo.supportedArgs getTwo.argv.tail).1 = some ⟨2, 2, 2⟩ := by
    decide
  exact (accepted_client_locates_iff _ accepted (by decide) parsed (by decide)).mpr (by decide)

/-- Three virtual nodes of one server pass the check for two servers, and the
collecting loop never ends. -/
theorem accepted_client_loops :
    ¬ ∀ (q : Qsort) (nodes : NodeList) (init : ClientInitArgs) (client : Client)
        (rest : List CString) (a left : Alloc),
      clientInit q (some nodes) init a = .done (.none, client, rest, left) →
      supports init.supportedArgs totalServers = true → 1 ≤ client.args.N.toNat →
      LocatesReplicas client := by
  intro locates
  have accepted : clientInit Qsort.insertion (some (virtualNodes 1234 3)) getTwo [] =
      .done (.none, ⟨⟨[103], by decide⟩, sortByRank (virtualNodes 1234 3), ⟨2, 2, 2⟩⟩,
        [⟨[107], by decide⟩], []) := by decide
  have located := locates _ _ _ _ _ _ _ accepted (by decide) (by decide)
  exact absurd ((locatesReplicas_iff (by decide)).mp located) (by decide)

end PpsDht

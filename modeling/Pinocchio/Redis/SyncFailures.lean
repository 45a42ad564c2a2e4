import Pinocchio.Redis.ParserErrors
import Pinocchio.Redis.Rejections
import Pinocchio.Redis.SyncClient

/-! Synchronous commands after a parser error.

Every command writes to the same socket and reads what comes next on it. A call that fails does not
read the rest of the reply that it could not parse. So the call after it begins with that rest,
unless the bytes that were rejected came with all of it.
-/

set_option autoImplicit false

namespace Pinocchio.Redis
open Semantics Reader

/-- How a call of `doSyncCommand` ends. After a parser error the handler may throw, which is what
the default one does, or `RedisValue()` is returned. -/
inductive SyncEnd where
  | value (v : RedisValue)
  | parserError
  | fault (fault : Fault)
  deriving DecidableEq, Repr

/-- The inner loop of `doSyncCommand`, from a position of the chunk on. -/
def syncLoop : Nat → RedisParser → Bytes → Nat → (reserve : Reserve := {}) →
    RedisParser × Option SyncEnd
  | 0, p, _, _, _ => (p, some (.fault .outOfFuel))
  | fuel + 1, p, inbuff, pos, reserve =>
    if pos < inbuff.length then
      match receive p inbuff pos reserve with
      | .error fault => (p, some (.fault fault))
      | .ok (.value v q _) => (q, some (.value v))
      | .ok (.more q pos) => syncLoop fuel q inbuff pos reserve
      | .ok (.error q _) => (q, some .parserError)
    else (p, none)

/-- What a call leaves: the parser, the bytes on the socket that were not read, and how it ended,
if it did. -/
structure SyncCall where
  redisParser : RedisParser
  unread : Bytes
  result : Option SyncEnd

/-- `doSyncCommand` after its write, where `sizes` are those that `read_some` returns. -/
def doSyncCommand : RedisParser → Bytes → List Nat → SyncCall
  | p, unread, [] => ⟨p, unread, none⟩
  | p, unread, size :: sizes =>
    match syncLoop (size + 1) p (unread.take size) 0 with
    -- What is left of the chunk is dropped.
    | (q, some result) => ⟨q, unread.drop size, some result⟩
    | (q, none) => doSyncCommand q (unread.drop size) sizes

/-- A reply that the server sends. Its texts may have any byte but CR and LF. -/
structure SentReply where
  wire : Wire
  formed : wire.Formed exactNumeral
  fits : Wire.Fits wire.bytes

theorem SentReply.taken (reply : SentReply) : reply.wire.Formed lenientNumeral :=
  reply.wire.formed_lenient reply.formed reply.fits

theorem SentReply.scan (reply : SentReply) :
    (reply.wire.Printable → resp.scan resp.start reply.wire.bytes =
      .done reply.wire.value reply.wire.bytes.length) ∧
    (¬reply.wire.Printable → Rejects resp.start reply.wire.bytes) :=
  have settles := reply.wire.bytes_settles reply.taken []
  ⟨fun printable => (settles.1 printable).exact, settles.2⟩

/-- A command, Redis's reply to it, and the sizes of the pieces that are read. -/
structure SyncCommand where
  items : Items
  reply : SentReply
  sizes : List Nat

/-- A client that is connected, and the calls that ended with the replies to their commands. -/
structure SyncSession where
  redisParser : RedisParser := {}
  toServer : Bytes := []
  toClient : Bytes := []
  ended : List (SentReply × SyncEnd) := []

namespace SyncSession

def stream (s : SyncSession) (command : SyncCommand) : Bytes :=
  s.toClient ++ command.reply.wire.bytes

def step (s : SyncSession) (command : SyncCommand) : Option SyncSession :=
  if (∀ n ∈ command.sizes, 0 < n ∧ n ≤ inbuffSize) ∧
      command.sizes.sum ≤ (s.stream command).length then
    match doSyncCommand s.redisParser (s.stream command) command.sizes with
    | ⟨redisParser, unread, some result⟩ =>
      some
        { redisParser := redisParser
          toServer := s.toServer ++ makeCommand command.items
          toClient := unread
          ended := s.ended ++ [(command.reply, result)] }
    | ⟨_, _, none⟩ => none
  else none

/-- After a call that failed, every call fails or returns what the reply to its own command denotes. -/
def OwnOrFailed (absent : RedisValue) (s : SyncSession) : Prop :=
  s.ended.Pairwise fun first later => first.2 = .parserError →
    later.2 = .parserError ∨ ∃ v, later.2 = .value v ∧ later.1.wire.Denotes absent v

def Failed (s : SyncSession) : Prop := ∃ reply, (reply, SyncEnd.parserError) ∈ s.ended

end SyncSession

/-- A piece that is rejected is the last one of the reply, and no more than one array is open
whose header came in an earlier piece. -/
def RejectsLast : Reader → Bytes → List Nat → Prop
  | _, _, [] => True
  | r, unread, size :: sizes =>
    match resp.scan r (unread.take size) with
    | .pending t => RejectsLast t (unread.drop size) sizes
    | .done _ _ => True
    | .rejected _ => unread.drop size = [] ∧ OneOpen r (unread.take size)

/-- A reply leaves nothing behind a rejected piece, and after a failure it is proper if it is taken. -/
def SyncSession.Contained (absent : RedisValue) (s : SyncSession) (command : SyncCommand) : Prop :=
  RejectsLast resp.start command.reply.wire.bytes command.sizes ∧
    (s.Failed → command.reply.wire.Printable → command.reply.wire.Proper absent)

def syncSession : System SyncSession SyncCommand := ⟨{}, SyncSession.step⟩

theorem syncLoop_meets {p : RedisParser} {r : Reader} (rep : Represents p r) {chunk : Bytes}
    {size : Nat} (enough : chunk.length ≤ size) :
    match resp.scan r chunk with
    | .pending t => ∃ q, syncLoop (size + 1) p chunk 0 = (q, none) ∧ Represents q t
    | .done v _ => ∃ q, syncLoop (size + 1) p chunk 0 = (q, some (.value v)) ∧
        Represents q resp.start
    | .rejected _ => ∃ q left, syncLoop (size + 1) p chunk 0 = (q, some .parserError) ∧
        Represents q ⟨.start, left⟩ ∧ (left = [] ↔ OneOpen r chunk) := by
  by_cases some : 0 < chunk.length
  · obtain ⟨size, rfl⟩ : ∃ n, size = n + 1 := ⟨size - 1, by omega⟩
    have turn := receive_meets rep chunk 0
    rw [List.drop_zero] at turn
    cases outcome : resp.scan r chunk with
    | pending t =>
      rw [outcome] at turn
      obtain ⟨q, got, held⟩ := turn
      refine ⟨q, ?_, held⟩
      have whole : ¬0 + (chunk.length - 0) < chunk.length := by omega
      rw [syncLoop, if_pos some, got]
      dsimp only
      rw [syncLoop, if_neg whole]
    | done v used =>
      rw [outcome] at turn
      obtain ⟨q, got, held⟩ := turn
      exact ⟨q, by rw [syncLoop, if_pos some, got], held⟩
    | rejected used =>
      obtain ⟨q, left, got, held, clean⟩ := receive_left rep outcome
      exact ⟨q, left, by rw [syncLoop, if_pos some, got], held, clean⟩
  · obtain rfl : chunk = [] := List.eq_nil_of_length_eq_zero (by omega)
    exact ⟨p, by rw [syncLoop, if_neg some], rep⟩

/-- The end of a call that reads what has this outcome. -/
def Ends (result : SyncEnd) : Outcome Reader RedisValue → Prop
  | .pending _ => False
  | .done v _ => result = .value v
  | .rejected _ => result = .parserError

theorem ends_shift {result : SyncEnd} {outcome : Outcome Reader RedisValue} (k : Nat) :
    Ends result (outcome.shift k) ↔ Ends result outcome := by
  cases outcome <;> rfl

theorem doSyncCommand_ended {sizes : List Nat} {p : RedisParser} {r : Reader} {unread : Bytes}
    {result : SyncEnd} (rep : Represents p r)
    (ended : (doSyncCommand p unread sizes).result = some result) :
    Ends result (resp.scan r unread) := by
  induction sizes generalizing p r unread with
  | nil => cases ended
  | cons size sizes ih =>
    have loop := syncLoop_meets rep (List.length_take_le size unread)
    rw [← List.take_append_drop size unread, resp.scan_append]
    cases outcome : resp.scan r (unread.take size) with
    | pending t =>
      rw [outcome] at loop
      obtain ⟨q, got, held⟩ := loop
      simp only [doSyncCommand, got] at ended
      exact (ends_shift _).mpr (ih held ended)
    | done v used =>
      rw [outcome] at loop
      obtain ⟨q, got, _⟩ := loop
      simp only [doSyncCommand, got] at ended
      cases ended
      rfl
    | rejected used =>
      rw [outcome] at loop
      obtain ⟨q, left, got, _⟩ := loop
      simp only [doSyncCommand, got] at ended
      cases ended
      rfl

theorem doSyncCommand_own {reply : SentReply} {sizes : List Nat} {p : RedisParser} {r : Reader}
    {fed unread : Bytes} {result : SyncEnd} (rep : Represents p r)
    (pending : resp.scan resp.start fed = .pending r) (whole : fed ++ unread = reply.wire.bytes)
    (contained : RejectsLast r unread sizes)
    (ended : (doSyncCommand p unread sizes).result = some result) :
    (result = .parserError ∨ result = .value reply.wire.value) ∧
      (doSyncCommand p unread sizes).unread = [] ∧
      Represents (doSyncCommand p unread sizes).redisParser resp.start := by
  induction sizes generalizing p r fed unread with
  | nil => cases ended
  | cons size sizes ih =>
    have loop := syncLoop_meets rep (List.length_take_le size unread)
    unfold RejectsLast at contained
    cases outcome : resp.scan r (unread.take size) with
    | pending t =>
      rw [outcome] at loop contained
      obtain ⟨q, got, held⟩ := loop
      have later : resp.scan resp.start (fed ++ unread.take size) = .pending t := by
        rw [Machine.scan_append, pending]
        simp only [outcome, Outcome.shift_pending]
      simp only [doSyncCommand, got] at ended ⊢
      refine ih held later ?_ contained ended
      rw [List.append_assoc, List.take_append_drop, whole]
    | done v used =>
      rw [outcome] at loop
      obtain ⟨q, got, held⟩ := loop
      simp only [doSyncCommand, got] at ended ⊢
      cases ended
      have done : resp.scan resp.start (fed ++ unread.take size) = .done v (used + fed.length) := by
        rw [Machine.scan_append, pending]
        simp only [outcome, Outcome.shift_done]
      obtain ⟨w, formed, bytes, rfl⟩ := accepts_of_scan hasRead_start done
      -- What was taken is a reply in front of the reply, so it is the reply.
      have front : w.bytes ++ (fed ++ unread).drop (used + fed.length) = reply.wire.bytes ++ [] := by
        have bound := (resp.scan_done_bounds done).2
        rw [bytes, List.nil_append, List.append_nil, ← whole]
        have split : fed ++ unread = (fed ++ unread.take size) ++ unread.drop size := by
          rw [List.append_assoc, List.take_append_drop]
        have taken : (fed ++ unread.take size).take (used + fed.length) =
            (fed ++ unread).take (used + fed.length) := by
          rw [split, List.take_append_of_le_length bound]
        rw [taken, List.take_append_drop]
      obtain ⟨rfl, none⟩ := Wire.bytes_unique w reply.wire formed reply.taken front
      refine ⟨Or.inr rfl, ?_, held⟩
      have used_le := (resp.scan_done_bounds outcome).2
      rw [List.length_take] at used_le
      rw [List.drop_eq_nil_iff, List.length_append] at none
      exact List.drop_eq_nil_of_le (by omega)
    | rejected used =>
      rw [outcome] at loop contained
      obtain ⟨q, left, got, held, clean⟩ := loop
      simp only [doSyncCommand, got] at ended ⊢
      cases ended
      obtain rfl := clean.mpr contained.2
      exact ⟨Or.inl rfl, contained.1, held⟩

theorem doSyncCommand_denotes {reply : SentReply} {sizes : List Nat} {p : RedisParser} {v : RedisValue}
    {absent : RedisValue} (rep : Represents p resp.start)
    (proper : reply.wire.Printable → reply.wire.Proper absent)
    (ended : (doSyncCommand p reply.wire.bytes sizes).result = some (.value v))
    (own : v = reply.wire.value) : reply.wire.Denotes absent v := by
  -- Where a byte is rejected the call ends with the parser error.
  have printable : reply.wire.Printable := by
    by_contra other
    obtain ⟨used, rejected⟩ := reply.scan.2 other
    have failed := doSyncCommand_ended rep ended
    rw [rejected] at failed
    cases failed
  rw [own]
  exact ((reply.wire.proper_iff absent reply.taken reply.fits).mpr (proper printable)).2

namespace SyncSession

/-- Between the calls nothing is left of an earlier reply. -/
structure Clear (absent : RedisValue) (s : SyncSession) : Prop where
  own : OwnOrFailed absent s
  read : s.toClient = []
  start : Represents s.redisParser resp.start

theorem Clear.step {absent : RedisValue} {s u : SyncSession} {command : SyncCommand}
    (held : Clear absent s) (contained : Contained absent s command)
    (step : s.step command = some u) : Clear absent u := by
  have whole : s.stream command = command.reply.wire.bytes := by
    rw [stream, held.read]
    rfl
  unfold SyncSession.step at step
  obtain ⟨_, step⟩ := Option.ite_none_right_eq_some.mp step
  rw [whole] at step
  split at step
  · rename_i parser unread result call
    have ended : (doSyncCommand s.redisParser command.reply.wire.bytes command.sizes).result =
        some result := by rw [call]
    obtain ⟨own, read, start⟩ :=
      doSyncCommand_own held.start rfl (List.nil_append _) contained.1 ended
    rw [call] at read start
    cases step
    refine ⟨List.pairwise_append.mpr ⟨held.own, List.pairwise_singleton _ _, ?_⟩, read, start⟩
    rintro ⟨earlier, outcome⟩ member later new failed
    obtain rfl : outcome = .parserError := failed
    obtain rfl := List.mem_singleton.mp new
    refine own.imp_right fun returned => ?_
    subst returned
    exact ⟨_, rfl, doSyncCommand_denotes held.start (contained.2 ⟨earlier, member⟩) ended rfl⟩
  · cases step

end SyncSession

/-- Where no piece of a reply is left behind a rejected one, and the replies that are taken after a
failure are proper, every call after a failure fails or returns the reply to its own command. -/
theorem syncSession_ownOrFailed {absent : RedisValue} {s : SyncSession}
    (reached : syncSession.Reaches (SyncSession.Contained absent) s) : s.OwnOrFailed absent := by
  have clear : SyncSession.Clear absent s :=
    reached.invariant ⟨List.Pairwise.nil, rfl, represents_initial⟩
      fun _ _ _ held contained step => held.step contained step
  exact clear.own

def rejectedReply : SentReply :=
  ⟨.text .simple (1 :: ascii "+OK"), ⟨by decide, by decide⟩, ⟨by decide +kernel⟩⟩

def integerSent : SentReply :=
  ⟨.integer (ascii "7"), ⟨7, by decide +kernel⟩, ⟨by decide +kernel⟩⟩

def brokenSession : SyncSession :=
  (syncSession.run syncSession.initial
    [⟨pingItems, rejectedReply, [2]⟩, ⟨pingItems, integerSent, [9]⟩]).get (by decide +kernel)

def wholeSession : SyncSession :=
  (syncSession.run syncSession.initial
    [⟨pingItems, rejectedReply, [7]⟩, ⟨pingItems, integerSent, [2, 2]⟩]).get (by decide +kernel)

theorem syncSession_ownOrFailed_whole :
    wholeSession.ended.map Prod.snd = [.parserError, .value (.int 7)] ∧
      wholeSession.OwnOrFailed .null := by
  refine ⟨by decide +kernel, syncSession_ownOrFailed
    (System.Reaches.run .initial ?_ (Option.some_get _).symm)⟩
  refine System.along_of_forall (fun command member s _ => ?_) _
  rcases List.mem_cons.mp member with rfl | member
  · refine ⟨⟨rfl, Or.inl rfl⟩, fun _ printable => ?_⟩
    exact absurd (printable 1 List.mem_cons_self) (by decide)
  · cases List.mem_singleton.mp member
    exact ⟨trivial, fun _ _ => ⟨7, by decide +kernel, by decide, by decide⟩⟩

/-- What is left of the rejected reply is returned as the reply to the next command. -/
theorem syncSession_leaks :
    ¬∃ absent, ∀ commands s, syncSession.run syncSession.initial commands = some s →
      s.OwnOrFailed absent := by
  rintro ⟨absent, always⟩
  have own := always _ brokenSession (Option.some_get _).symm
  have ends : brokenSession.ended =
      [(rejectedReply, .parserError), (integerSent, .value (.bytes (ascii "OK") false))] := rfl
  unfold SyncSession.OwnOrFailed at own
  rw [ends] at own
  rcases List.rel_of_pairwise_cons own (List.mem_singleton.mpr rfl) rfl with failed | ⟨v, same, n, _, no⟩
  · cases failed
  · cases same
    cases no

end Pinocchio.Redis

import Mathlib.Data.List.Basic
import Pinocchio.Redis.Reading
import Pinocchio.Redis.Reply

/-! Commands on the wire.

A command is sent as an array of bulk strings. Lengths go before the bytes, so no
byte of an argument can end it or start another one.
-/

set_option autoImplicit false

namespace Pinocchio.Redis
open Semantics Reader RedisParser

/-- A view of bytes held elsewhere. -/
abbrev RedisBuffer := Text

def RedisBuffer.size (buf : RedisBuffer) : Nat := buf.val.length

def RedisBuffer.data (buf : RedisBuffer) : Bytes := buf.val

/-- The view of a C string, whose length is found by searching for the NUL. -/
def RedisBuffer.ofCString (s : Text) : RedisBuffer := s.untilNul

abbrev Items := Sized RedisBuffer

def pingItems : Items := ⟨[⟨ascii "PING", by decide⟩], one_le_longMax⟩

def append (vec bytes : Bytes) : Bytes := vec ++ bytes

def makeCommand (items : Items) : Bytes :=
  let result : Bytes := []
  let result := append result [arrayReply]
  let result := append result (decimal items.val.length)
  let result := append result crlf
  items.val.foldl (fun result (it : RedisBuffer) =>
    let result := append result [bulkReply]
    let result := append result (decimal it.size)
    let result := append result crlf
    let result := append result it.data
    append result crlf) result

/-- The message a command is: an array of bulk strings. -/
def Items.message (items : Items) : Reply := .array (items.val.map fun it => .bulk it.val)

def Items.value (items : Items) : RedisValue := .array (items.val.map fun it => .bytes it.val false)

theorem Items.value_injective : Function.Injective Items.value := by
  intro first second same
  apply Subtype.ext
  refine List.map_injective_iff.mpr ?_ (RedisValue.array.inj same)
  intro a b equal
  exact Subtype.ext (RedisValue.bytes.inj equal).1

theorem Items.message_value (items : Items) : items.message.value = items.value := by
  rw [message, Reply.value, Reply.values_eq_map, List.map_map]
  rfl

theorem Items.message_wellFormed (items : Items) : items.message.WellFormed longMin longMax := by
  have all (words : List RedisBuffer) :
      Reply.AllWellFormed longMin longMax (words.map fun it => .bulk it.val) := by
    induction words with
    | nil => trivial
    | cons it rest ih => exact ⟨it.property, ih⟩
  exact ⟨by rw [List.length_map]; exact items.property, all items.val⟩

theorem makeCommand_eq_encode (items : Items) : makeCommand items = items.message.encode := by
  have each (words : List RedisBuffer) (result : Bytes) :
      words.foldl (fun result (it : RedisBuffer) =>
        append (append (append (append (append result [bulkReply]) (decimal it.size)) crlf) it.data)
          crlf) result = result ++ Reply.encodeItems (words.map fun it => .bulk it.val) := by
    induction words generalizing result with
    | nil => simp [Reply.encodeItems]
    | cons it rest ih =>
      rw [List.foldl_cons, ih, List.map_cons, Reply.encodeItems, Reply.encode]
      simp [append, RedisBuffer.size, RedisBuffer.data]
  rw [makeCommand, each, Items.message, Reply.encode, List.length_map]
  simp [append]

theorem makeCommand_yields (items : Items) :
    resp.Yields resp.start (makeCommand items) (.done items.value) := by
  rw [makeCommand_eq_encode, ← items.message_value]
  exact Reply.encode_done items.message_wellFormed

theorem consume_commands (commands : List Items) :
    resp.consume resp.start (commands.flatMap makeCommand) =
      ⟨commands.map Items.value, .waiting resp.start⟩ :=
  resp.consume_items makeCommand Items.value (fun items => (makeCommand_yields items).exact)
    commands

theorem commands_injective :
    Function.Injective fun commands : List Items => commands.flatMap makeCommand := by
  intro first second same
  have read : (resp.consume resp.start (first.flatMap makeCommand)).items =
      (resp.consume resp.start (second.flatMap makeCommand)).items :=
    congrArg (fun bytes => (resp.consume resp.start bytes).items) same
  rw [consume_commands, consume_commands] at read
  exact List.map_injective_iff.mpr Items.value_injective read

/-- Commands sent in a row are received word for word, however the bytes arrive. Nothing is
left over: what follows is read as by a fresh parser. -/
theorem makeCommand_readStream :
    (∀ (commands : List Items) (chunks : List Bytes),
      chunks.flatten = commands.flatMap makeCommand →
      readStream {} chunks = .ok ⟨commands.map Items.value, none⟩ ∧
      ∀ more read, readStream {} more = .ok read →
        readStream {} (chunks ++ more) =
          .ok ⟨commands.map Items.value ++ read.values,
            read.error.map (· + chunks.flatten.length)⟩) ∧
    (Function.Injective fun commands : List Items => commands.flatMap makeCommand) ∧
    Function.Injective makeCommand := by
  refine ⟨?_, commands_injective, ?_⟩
  · intro commands chunks bytes
    have whole := consume_commands commands
    rw [← bytes] at whole
    constructor
    · rw [readStream_agrees represents_initial, whole]
      rfl
    · intro more read held
      rw [readStream_agrees represents_initial] at held ⊢
      cases held
      rw [List.flatten_append, resp.consume_append_waiting whole]
      simp only [verdict, errorOffset_shift]
  · intro first second same
    have single : [first] = [second] := commands_injective (by simp [same])
    exact List.singleton_inj.mp single

theorem lpush_fits : ((ascii "LPUSH").length : Int) ≤ longMax := by decide

def hostilePush : Items :=
  ⟨[⟨ascii "LPUSH", lpush_fits⟩, ⟨ascii "t\r\n*1\r\n$8\r\nFLUSHALL", by decide⟩,
      ⟨[0], one_le_longMax⟩],
    three_le_longMax⟩

theorem makeCommand_readStream_hostile :
    readStream {} [(makeCommand hostilePush).take 30, (makeCommand hostilePush).drop 30] =
      .ok ⟨[hostilePush.value], none⟩ :=
  (makeCommand_readStream.1 [hostilePush] _ (by simp)).1

end Pinocchio.Redis

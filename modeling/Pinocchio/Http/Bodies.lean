import Pinocchio.Http.Routes
import Pinocchio.Json.Dump

/-! Reading the body of `/gcm/recv`.

The messages stand between markers that they may contain themselves. But every one of them is a JSON
text, and such a text ends where its brackets and its quotation marks do. So a reader that takes one
text after each marker finds the messages again.
-/

set_option autoImplicit false

namespace Pinocchio.Http
open Semantics Redis Json

/-- The body for the messages that Redis gave, newest first. -/
def recvBody (messages : List Bytes) : Bytes := messageBody (messages.map (.bytes · false))

/-! The reader: a text is a word, a string, or what is between brackets. -/

def isDelimiter (c : UInt8) : Bool :=
  c = dquote || c = comma || c = colon || c = openList || c = closeList || c = openObject ||
    c = closeObject

/-- What is read: the rest of a marker, the start of a text, a word, something inside brackets, a
string in so many brackets or the character after a backslash in it, and the end of a text or of its
entry. -/
inductive Scan where
  | marker (left : Bytes)
  | start
  | word (text : Bytes)
  | inside (depth : Nat) (text : Bytes)
  | string (depth : Nat) (text : Bytes)
  | escaped (depth : Nat) (text : Bytes)
  | ended (text : Bytes)
  | closed (text : Bytes)

inductive Entry where
  | message (text : Bytes)
  | last (text : Bytes)

def marker : Bytes := ascii "\x7bdata:"

namespace Scan

def outside (depth : Nat) (text : Bytes) : Scan :=
  if depth = 0 then .ended text else .inside depth text

def feed : Scan → UInt8 → Progress Scan Entry
  | .marker [], _ => .reject
  | .marker (d :: left), c =>
    if c = d then .more (if left = [] then .start else .marker left) else .reject
  | .start, c =>
    if c = dquote then .more (.string 0 [c])
    else if c = openList ∨ c = openObject then .more (.inside 1 [c])
    else if isDelimiter c then .reject
    else .more (.word [c])
  | .word text, c =>
    if c = closeObject then .more (.closed text)
    else if isDelimiter c then .reject
    else .more (.word (text ++ [c]))
  | .inside depth text, c =>
    if c = dquote then .more (.string depth (text ++ [c]))
    else if c = openList ∨ c = openObject then .more (.inside (depth + 1) (text ++ [c]))
    else if c = closeList ∨ c = closeObject then .more (outside (depth - 1) (text ++ [c]))
    else .more (.inside depth (text ++ [c]))
  | .string depth text, c =>
    if c = backslash then .more (.escaped depth (text ++ [c]))
    else if c = dquote then .more (outside depth (text ++ [c]))
    else .more (.string depth (text ++ [c]))
  | .escaped depth text, c => .more (.string depth (text ++ [c]))
  | .ended text, c => if c = closeObject then .more (.closed text) else .reject
  | .closed text, c =>
    if c = comma then .done (.message text)
    else if c = closeList then .done (.last text)
    else .reject

end Scan

def entries : Machine Scan UInt8 Entry := ⟨.marker marker, Scan.feed⟩

/-- The messages before the sentinel, which is the last entry and has an empty string. -/
def messagesOf : List Entry → Option (List Bytes)
  | [.last text] => if text = ascii "\"\"" then some [] else none
  | .message text :: rest => (messagesOf rest).map (text :: ·)
  | _ => none

def readBody : Bytes → Option (List Bytes)
  | [] => none
  | c :: body =>
    if c = openList then
      match entries.consume entries.start body with
      | ⟨items, .waiting (.marker left)⟩ => if left = marker then messagesOf items else none
      | _ => none
    else none

section
variable (depth : Nat) (text : Bytes)

theorem plain_yields {run : Bytes} (plain : ∀ c ∈ run, c ≠ backslash ∧ c ≠ dquote) :
    entries.Yields (.string depth text) run (.more (.string depth (text ++ run))) := by
  induction run generalizing text with
  | nil => simpa using Machine.Yields.nil (m := entries) (.string depth text)
  | cons c run ih =>
    obtain ⟨⟨notEscape, notEnd⟩, rest⟩ := List.forall_mem_cons.mp plain
    have tail := ih (text ++ [c]) rest
    rw [List.append_assoc, List.singleton_append] at tail
    refine Machine.Yields.cons ?_ tail
    simp only [entries, Scan.feed, if_neg notEscape, if_neg notEnd]

theorem escapeChar_cases : ∀ c : UInt8, (escapeChar c = [c] ∧ c ≠ backslash ∧ c ≠ dquote) ∨
    ∃ d run, escapeChar c = backslash :: d :: run ∧ ∀ e ∈ run, e ≠ backslash ∧ e ≠ dquote := by
  have written : ∀ c : UInt8, (escapeChar c = [c] ∧ c ≠ backslash ∧ c ≠ dquote) ∨
      (escapeChar c).head? = some backslash ∧ (escapeChar c).tail ≠ [] ∧
        ((escapeChar c).tail.tail.all fun e => e != backslash && e != dquote) = true :=
    forall_byte (by decide +kernel)
  intro c
  refine (written c).imp_right ?_
  rintro ⟨head, some, plain⟩
  match text : escapeChar c, head, some, plain with
  | d :: e :: run, head, _, plain =>
    cases head
    exact ⟨e, run, rfl, by simpa using plain⟩

theorem escape_yields (str : Bytes) :
    entries.Yields (.string depth text) (escape str) (.more (.string depth (text ++ escape str))) := by
  induction str generalizing text with
  | nil => simpa [escape] using Machine.Yields.nil (m := entries) (.string depth text)
  | cons c str ih =>
    have first : entries.Yields (.string depth text) (escapeChar c)
        (.more (.string depth (text ++ escapeChar c))) := by
      rcases escapeChar_cases c with ⟨same, plain⟩ | ⟨d, run, same, plain⟩
      · rw [same]
        exact plain_yields depth text (by simpa using plain)
      · have tail := plain_yields depth (text ++ [backslash] ++ [d]) plain
        rw [same]
        refine Machine.Yields.cons (t := .escaped depth (text ++ [backslash])) rfl
          (Machine.Yields.cons (t := .string depth (text ++ [backslash] ++ [d])) rfl ?_)
        simpa using tail
    have tail := ih (text ++ escapeChar c)
    rw [List.append_assoc] at tail
    exact first.append tail

theorem stringEnd_yields (str : Bytes) :
    entries.Yields (.string depth text) (escape str ++ [dquote])
      (.more (Scan.outside depth (text ++ (escape str ++ [dquote])))) := by
  refine (escape_yields depth text str).append (Machine.Yields.one ?_)
  rw [← List.append_assoc]
  rfl

theorem dumpString_yields (str : Bytes) :
    entries.Yields (.inside (depth + 1) text) (dumpString str)
      (.more (.inside (depth + 1) (text ++ dumpString str))) := by
  have rest := stringEnd_yields (depth + 1) (text ++ [dquote]) str
  rw [List.append_assoc, List.singleton_append] at rest
  exact Machine.Yields.cons (t := .string (depth + 1) (text ++ [dquote])) rfl rest

theorem inside_yields {run : Bytes}
    (free : ∀ c ∈ run, isDelimiter c = true → c = comma ∨ c = colon) :
    entries.Yields (.inside depth text) run (.more (.inside depth (text ++ run))) := by
  induction run generalizing text with
  | nil => simpa using Machine.Yields.nil (m := entries) (.inside depth text)
  | cons c run ih =>
    obtain ⟨head, rest⟩ := List.forall_mem_cons.mp free
    have tail := ih (text ++ [c]) rest
    rw [List.append_assoc, List.singleton_append] at tail
    have others : ∀ c : UInt8, (isDelimiter c = true → c = comma ∨ c = colon) →
        c ≠ dquote ∧ ¬(c = openList ∨ c = openObject) ∧ ¬(c = closeList ∨ c = closeObject) :=
      forall_byte (by decide +kernel)
    obtain ⟨notString, notOpen, notClose⟩ := others c head
    refine Machine.Yields.cons ?_ tail
    simp only [entries, Scan.feed, if_neg notString, if_neg notOpen, if_neg notClose]

end

section
variable {D : Type} {number : D → Bytes}

def IsWord (text : Bytes) : Prop := text ≠ [] ∧ ∀ c ∈ text, isDelimiter c = false

instance (text : Bytes) : Decidable (IsWord text) :=
  decidable_of_iff (text ≠ [] ∧ text.all (!isDelimiter ·) = true) (by simp [IsWord])

theorem IsWord.yields {word : Bytes} (isWord : IsWord word) (depth : Nat) (text : Bytes) :
    entries.Yields (.inside depth text) word (.more (.inside depth (text ++ word))) :=
  inside_yields depth text fun c member delimiter => absurd delimiter (by simp [isWord.2 c member])

theorem separator_yields (depth : Nat) (text : Bytes) (first : Bool) :
    entries.Yields (.inside depth text) (if !first then [comma] else [])
      (.more (.inside depth (text ++ if !first then [comma] else []))) := by
  cases first with
  | false => exact inside_yields depth text fun _ member _ => Or.inl (List.mem_singleton.mp member)
  | true => exact inside_yields depth text fun c member => nomatch member

theorem colon_yields (depth : Nat) (text : Bytes) :
    entries.Yields (.inside depth text) [colon] (.more (.inside depth (text ++ [colon]))) :=
  inside_yields depth text fun _ member _ => Or.inr (List.mem_singleton.mp member)

mutual
theorem dumpInternal_yields (words : ∀ d, IsWord (number d)) :
    ∀ (v : WValue D) (depth : Nat) (text : Bytes),
    entries.Yields (.inside (depth + 1) text) (dumpInternal number v)
      (.more (.inside (depth + 1) (text ++ dumpInternal number v)))
  | .null, depth, text => IsWord.yields (by decide : IsWord (ascii "null")) (depth + 1) text
  | .false, depth, text => IsWord.yields (by decide : IsWord (ascii "false")) (depth + 1) text
  | .true, depth, text => IsWord.yields (by decide : IsWord (ascii "true")) (depth + 1) text
  | .number d, depth, text => (words d).yields (depth + 1) text
  | .string s, depth, text => dumpString_yields depth text s
  | .list l, depth, text => by
    -- The opening bracket leads one level deeper, and the closing one back.
    have items := dumpItems_yields words true l (depth + 1) (text ++ [openList])
    have closes : entries.feed
        (.inside (depth + 1 + 1) (text ++ [openList] ++ dumpItems number true l)) closeList =
        .more (.inside (depth + 1)
          (text ++ [openList] ++ dumpItems number true l ++ [closeList])) := rfl
    rw [dumpInternal]
    refine Machine.Yields.cons (t := .inside (depth + 1 + 1) (text ++ [openList])) rfl ?_
    simpa using items.append (Machine.Yields.one closes)
  | .object o, depth, text => by
    have members := dumpMembers_yields words true o (depth + 1) (text ++ [openObject])
    have closes : entries.feed
        (.inside (depth + 1 + 1) (text ++ [openObject] ++ dumpMembers number true o)) closeObject =
        .more (.inside (depth + 1)
          (text ++ [openObject] ++ dumpMembers number true o ++ [closeObject])) := rfl
    rw [dumpInternal]
    refine Machine.Yields.cons (t := .inside (depth + 1 + 1) (text ++ [openObject])) rfl ?_
    simpa using members.append (Machine.Yields.one closes)
theorem dumpItems_yields (words : ∀ d, IsWord (number d)) (first : Bool) :
    ∀ (l : List (WValue D)) (depth : Nat) (text : Bytes),
    entries.Yields (.inside (depth + 1) text) (dumpItems number first l)
      (.more (.inside (depth + 1) (text ++ dumpItems number first l)))
  | [], depth, text => by
    simpa [dumpItems] using Machine.Yields.nil (m := entries) (.inside (depth + 1) text)
  | x :: l, depth, text => by
    have head := (separator_yields (depth + 1) text first).append
      (dumpInternal_yields words x depth _)
    have all := head.append (dumpItems_yields words false l depth _)
    rw [dumpItems]
    simpa only [List.append_assoc] using all
theorem dumpMembers_yields (words : ∀ d, IsWord (number d)) (first : Bool) :
    ∀ (o : List (Bytes × WValue D)) (depth : Nat) (text : Bytes),
    entries.Yields (.inside (depth + 1) text) (dumpMembers number first o)
      (.more (.inside (depth + 1) (text ++ dumpMembers number first o)))
  | [], depth, text => by
    simpa [dumpMembers] using Machine.Yields.nil (m := entries) (.inside (depth + 1) text)
  | (key, x) :: o, depth, text => by
    have named := (separator_yields (depth + 1) text first).append
      (dumpString_yields depth _ key)
    have head := (named.append (colon_yields (depth + 1) _)).append (dumpInternal_yields words x depth _)
    have all := head.append (dumpMembers_yields words false o depth _)
    rw [dumpMembers]
    simpa only [List.append_assoc] using all
end

theorem IsWord.closed {word : Bytes} (isWord : IsWord word) :
    entries.Yields .start (word ++ [closeObject]) (.more (.closed word)) := by
  obtain ⟨some, free⟩ := isWord
  have goes (run text : Bytes) (free : ∀ c ∈ run, isDelimiter c = false) :
      entries.Yields (.word text) (run ++ [closeObject]) (.more (.closed (text ++ run))) := by
    induction run generalizing text with
    | nil => exact Machine.Yields.one (by simp [entries, Scan.feed])
    | cons c run ih =>
      obtain ⟨head, rest⟩ := List.forall_mem_cons.mp free
      have tail := ih (text ++ [c]) rest
      rw [List.append_assoc, List.singleton_append] at tail
      have notEnd : c ≠ closeObject := by rintro rfl; exact absurd head (by decide)
      refine Machine.Yields.cons ?_ tail
      simp only [entries, Scan.feed, if_neg notEnd, head, Bool.false_eq_true, if_false]
  cases word with
  | nil => exact absurd rfl some
  | cons c run =>
    obtain ⟨head, rest⟩ := List.forall_mem_cons.mp free
    have others : ∀ c : UInt8, isDelimiter c = false →
        c ≠ dquote ∧ ¬(c = openList ∨ c = openObject) := forall_byte (by decide +kernel)
    obtain ⟨notString, notOpen⟩ := others c head
    refine Machine.Yields.cons (t := .word [c]) ?_ (goes run [c] rest)
    simp only [entries, Scan.feed, if_neg notString, if_neg notOpen, head, Bool.false_eq_true,
      if_false]

theorem closed_of_ended {text : Bytes} (whole : entries.Yields .start text (.more (.ended text))) :
    entries.Yields .start (text ++ [closeObject]) (.more (.closed text)) :=
  whole.append (Machine.Yields.one rfl)

/-- Exactly one text is taken after a marker. -/
theorem dump_closed (words : ∀ d, IsWord (number d)) (v : WValue D) :
    entries.Yields .start (dump number v ++ [closeObject]) (.more (.closed (dump number v))) := by
  unfold dump
  cases v with
  | null => exact IsWord.closed (by decide : IsWord (ascii "null"))
  | «false» => exact IsWord.closed (by decide : IsWord (ascii "false"))
  | «true» => exact IsWord.closed (by decide : IsWord (ascii "true"))
  | number d => exact (words d).closed
  | string s =>
    exact closed_of_ended (Machine.Yields.cons (t := .string 0 [dquote]) rfl (stringEnd_yields 0 [dquote] s))
  | list l =>
    have items := dumpItems_yields words true l 0 [openList]
    refine closed_of_ended (Machine.Yields.cons (t := .inside 1 [openList]) rfl ?_)
    exact items.append (Machine.Yields.one rfl)
  | object o =>
    have members := dumpMembers_yields words true o 0 [openObject]
    refine closed_of_ended (Machine.Yields.cons (t := .inside 1 [openObject]) rfl ?_)
    exact members.append (Machine.Yields.one rfl)

def entryBytes (number : D → Bytes) (entry : WValue D × Bool) : Bytes :=
  marker ++ (dump number entry.1 ++ [closeObject]) ++ [if entry.2 then closeList else comma]

def entryOf (number : D → Bytes) (entry : WValue D × Bool) : Entry :=
  if entry.2 then .last (dump number entry.1) else .message (dump number entry.1)

theorem marker_yields {left : Bytes} (some : left ≠ []) :
    entries.Yields (.marker left) left (.more .start) := by
  induction left with
  | nil => exact absurd rfl some
  | cons c left ih =>
    cases left with
    | nil => exact Machine.Yields.one (by simp [entries, Scan.feed])
    | cons d left =>
      refine Machine.Yields.cons (t := .marker (d :: left)) ?_ (ih (List.cons_ne_nil _ _))
      simp [entries, Scan.feed]

theorem entry_yields (words : ∀ d, IsWord (number d)) (entry : WValue D × Bool) :
    entries.Yields entries.start (entryBytes number entry) (.done (entryOf number entry)) := by
  have named : entries.Yields entries.start marker (.more .start) := marker_yields (by decide)
  refine (named.append (dump_closed words entry.1)).append (Machine.Yields.one ?_)
  obtain ⟨v, last⟩ := entry
  cases last <;> rfl

def sentinel : WValue D × Bool := (.string [], true)

/-- The sentinel looks like a message with an empty string, but for what comes after it. -/
theorem recvBody_entries (values : List (WValue D)) :
    recvBody (values.map (dump number)) = openList ::
      (values.reverse.map (·, false) ++ [sentinel]).flatMap (entryBytes number) := by
  have bodies (items : List (WValue D)) :
      (items.map fun v => RedisValue.bytes (dump number v) false).flatMap
        (fun v => ascii "\x7bdata:" ++ v.toString ++ ascii "\x7d,") =
      (items.map fun v => (v, false)).flatMap (entryBytes number) := by
    rw [List.flatMap_map, List.flatMap_map]
    congr 1
    funext v
    simp only [entryBytes, marker, RedisValue.toString, RedisValue.toByteArray, List.append_assoc]
    rfl
  rw [recvBody, messageBody, turned, List.map_map, ← List.map_reverse, List.flatMap_append,
    ← bodies values.reverse]
  rfl

theorem messagesOf_entries (values : List (WValue D)) :
    messagesOf ((values.map (·, false) ++ [sentinel]).map (entryOf number)) =
      some (values.map (dump number)) := by
  induction values with
  | nil => rfl
  | cons v values ih =>
    rw [List.map_cons, List.cons_append, List.map_cons, List.map_cons]
    exact congrArg (Option.map (dump number v :: ·)) ih

theorem readBody_recvBody (words : ∀ d, IsWord (number d)) (values : List (WValue D)) :
    readBody (recvBody (values.map (dump number))) = some (values.reverse.map (dump number)) := by
  have read := entries.consume_items (entryBytes number) (entryOf number)
    (fun entry => (entry_yields words entry).exact)
    (values.reverse.map (·, false) ++ [sentinel])
  rw [recvBody_entries]
  simp only [readBody, if_true, read]
  exact messagesOf_entries values.reverse

/-- The texts that a dump can give. -/
def IsDump (number : D → Bytes) (text : Bytes) : Prop := ∃ v, text = dump number v

theorem exists_values {texts : List Bytes} (dumps : ∀ text ∈ texts, IsDump number text) :
    ∃ values : List (WValue D), texts = values.map (dump number) := by
  induction texts with
  | nil => exact ⟨[], rfl⟩
  | cons text texts ih =>
    obtain ⟨⟨v, rfl⟩, rest⟩ := List.forall_mem_cons.mp dumps
    obtain ⟨values, rfl⟩ := ih rest
    exact ⟨v :: values, rfl⟩

/-- The body determines the messages, and a reader finds them in it, whatever they contain. -/
theorem recvBody_determines (words : ∀ d, IsWord (number d)) :
    (∀ messages, (∀ text ∈ messages, IsDump number text) →
      readBody (recvBody messages) = some messages.reverse) ∧
    ∀ first second, (∀ text ∈ first, IsDump number text) →
      (∀ text ∈ second, IsDump number text) → recvBody first = recvBody second →
      first = second := by
  have reads (messages : List Bytes) (dumps : ∀ text ∈ messages, IsDump number text) :
      readBody (recvBody messages) = some messages.reverse := by
    obtain ⟨values, rfl⟩ := exists_values dumps
    rw [readBody_recvBody words, List.map_reverse]
  refine ⟨reads, fun first second one two same => ?_⟩
  have read := reads first one
  rw [same, reads second two] at read
  exact (List.reverse_injective (Option.some.inj read)).symm

end

def trickyMessages : List (WValue Int) :=
  [.string [], .string (ascii "\x7d,\x7bdata:\"\"\x7d]"), .object [(ascii "\x7bdata:", .list [.number (-7)])]]

theorem recvBody_determines_tricky :
    readBody (recvBody (trickyMessages.map (dump decimalInt))) =
      some (trickyMessages.map (dump decimalInt)).reverse := by
  refine (recvBody_determines (D := Int) fun d => ⟨Reply.decimalInt_ne_nil d, fun c member => ?_⟩).1
    _ fun text member => ?_
  · have numeral := Reply.isNumeral_of_mem_decimalInt member
    have free : ∀ c, Reply.isNumeral c = true → isDelimiter c = false :=
      forall_byte (by decide +kernel)
    exact free c numeral
  · obtain ⟨v, _, same⟩ := List.mem_map.mp member
    exact ⟨v, same.symm⟩

end Pinocchio.Http

import Pinocchio.Http.Router
import Pinocchio.Http.Routes

/-! The tokens that both message routes serve.

`/gcm/send` takes any string for a token, strips quotation marks and pushes. The token of
`/gcm/recv` is a piece of a URL and is limited in its length, so it can be fewer strings.
-/

set_option autoImplicit false

namespace Pinocchio.Http
open Semantics Redis Database

/-! What the parser makes of a path. -/

/-- The characters that may come behind the slash that begins a path. -/
def isPathChar (c : UInt8) : Bool := isUrlChar c || c = question || c = hash

def UrlState.inPath : UrlState → Bool
  | .path | .queryStringStart | .queryString | .fragmentStart | .fragment => true
  | _ => false

theorem parseUrlChar_inPath {s : UrlState} (path : s.inPath = true) (c : UInt8) :
    if isPathChar c = true then (parseUrlChar s c).inPath = true else parseUrlChar s c = .dead := by
  have blank (member : c ∈ ([32, 13, 10, 9, 12] : Bytes)) : isPathChar c = false := by
    simp only [List.mem_cons, List.not_mem_nil, or_false] at member
    rcases member with rfl | rfl | rfl | rfl | rfl <;> decide
  by_cases member : c ∈ ([32, 13, 10, 9, 12] : Bytes)
  · have dead : parseUrlChar s c = .dead := if_pos member
    rw [blank member, dead]
    simp
  · cases s <;> grind [parseUrlChar, isPathChar, UrlState.inPath]

theorem foldl_dead (word : Bytes) : word.foldl parseUrlChar .dead = .dead := by
  induction word with
  | nil => rfl
  | cons c rest ih =>
    have stays : parseUrlChar .dead c = .dead := by
      simp only [parseUrlChar]
      split <;> rfl
    rw [List.foldl_cons, stays, ih]

theorem foldl_inPath {s : UrlState} (path : s.inPath = true) (word : Bytes) :
    (word.foldl parseUrlChar s).ends = true ↔ ∀ c ∈ word, isPathChar c = true := by
  induction word generalizing s with
  | nil =>
    have ends : s.ends = true := by cases s <;> first | rfl | cases path
    simp [ends]
  | cons c rest ih =>
    have next := parseUrlChar_inPath path c
    rw [List.foldl_cons, List.forall_mem_cons]
    split at next
    · rename_i good
      rw [ih next]
      simp [good]
    · rename_i bad
      rw [next, foldl_dead]
      simp [UrlState.ends, bad]

theorem rawUrl_recv (rest : Bytes) :
    rawUrl .get (ascii "/gcm/recv/" ++ rest) =
      if ∀ c ∈ rest, isPathChar c = true then some (ascii "/gcm/recv/" ++ rest) else none := by
  have start : (ascii "/gcm/recv/").foldl parseUrlChar .spacesBeforeUrl = .path := by decide
  have path := foldl_inPath (s := .path) rfl rest
  have get : (if HttpMethod.get = .connect then UrlState.serverStart else .spacesBeforeUrl) =
      .spacesBeforeUrl := rfl
  simp only [rawUrl, get, List.foldl_append, start]
  by_cases good : ∀ c ∈ rest, isPathChar c = true
  · rw [if_pos (path.mpr good), if_pos good]
  · rw [if_neg (fun ends => good (path.mp ends)), if_neg good]

/-! What the trie makes of a path. -/

namespace Trie
variable {trie : Trie} {idx : Nat} {node : Node}

theorem updateFound_none (ret : Nat × List Bytes) :
    updateFound (0, []) ret = if ret.1 ≠ 0 then ret else (0, []) := by
  simp [updateFound]

/-- Below a node without a parameter the fragments decide, and what they say about the text in
front does not depend on the rest. -/
theorem find_fragments (here : trie.node idx = node) (plain : node.stringChild = 0) (fuel : Nat)
    {text : Bytes} (some : text ≠ []) (rest : Bytes) (params : List Bytes)
    (long : ∀ kv ∈ node.children, kv.1.length ≤ text.length) :
    trie.find (fuel + 1) (text ++ rest) idx params =
      node.children.foldl (fun found kv =>
        if kv.1.isPrefixOf text then
          updateFound found (trie.find fuel (text.drop kv.1.length ++ rest) kv.2 params)
        else found) (0, []) := by
  have nonempty : text ++ rest ≠ [] := by simp [some]
  simp only [find, here, plain, if_neg nonempty, ne_eq, not_true_eq_false, false_and, if_false]
  apply List.foldl_ext
  intro found kv member
  have short := long kv member
  have same : kv.1.isPrefixOf (text ++ rest) = kv.1.isPrefixOf text := by
    rw [Bool.eq_iff_iff, List.isPrefixOf_iff_prefix, List.isPrefixOf_iff_prefix]
    exact ⟨fun long => List.prefix_of_prefix_length_le long (List.prefix_append _ _) short,
      fun front => front.trans (List.prefix_append _ _)⟩
  rw [same, List.drop_append_of_le_length short]

theorem find_param {leaf ruleIndex : Nat} (here : trie.node idx = { stringChild := leaf })
    (child : leaf ≠ 0) (bottom : trie.node leaf = { ruleIndex }) (rule : ruleIndex ≠ 0)
    (fuel : Nat) (text : Bytes) :
    trie.find (fuel + 2) text idx [] =
      if text ≠ [] ∧ slash ∉ text then (ruleIndex, [text]) else (0, []) := by
  cases text with
  | nil => simp [find, here]
  | cons c rest =>
    have leafFind (url : Bytes) (params : List Bytes) : trie.find (fuel + 1) url leaf params =
        if url = [] then (ruleIndex, params) else (0, []) := by
      simp only [find, bottom, ne_eq, not_true_eq_false, false_and, if_false, List.foldl_nil]
    have free : slash ∉ c :: rest ↔ (c :: rest).dropWhile (· != slash) = [] := by
      rw [List.dropWhile_eq_nil_iff]
      exact all_ne_iff.symm
    rw [find]
    simp only [here, leafFind, updateFound_none, free, ne_eq, reduceCtorEq, not_false_eq_true,
      true_and, List.foldl_nil, if_false, child]
    by_cases whole : (c :: rest).dropWhile (· != slash) = []
    · have param : (c :: rest).takeWhile (· != slash) = c :: rest :=
        takeWhile_ne_eq_self.mpr (free.mpr whole)
      simp [whole, param, rule]
    · simp [whole]

end Trie

def recvRule : Nat := 5

theorem router_nodes :
    router.length = 41 + 5 ∧ router.node 0 = ⟨0, 0, [(ascii "/", 1)]⟩ ∧
      router.node 1 = ⟨2, 0, [(ascii "regist/", 8), (ascii "gcm/sen", 16), (ascii "gcm/rec", 20),
        (ascii "gcm/pub", 26)]⟩ ∧
      router.node 20 = ⟨0, 0, [(ascii "v/", 22)]⟩ ∧ router.node 22 = { stringChild := 23 } ∧
      router.node 23 = { ruleIndex := recvRule } := by
  decide +kernel

theorem find_recv (rest : Bytes) :
    router.find router.length (ascii "/gcm/recv/" ++ rest) 0 [] =
      if rest ≠ [] ∧ slash ∉ rest then (recvRule, [rest]) else (0, []) := by
  obtain ⟨size, root, top, stem, param, bottom⟩ := router_nodes
  have step (fuel idx : Nat) (node : Node) (text : Bytes) (here : router.node idx = node)
      (plain : node.stringChild = 0) (some : text ≠ [])
      (long : ∀ kv ∈ node.children, kv.1.length ≤ text.length) :=
    Trie.find_fragments here plain fuel some rest [] long
  rw [size, step 45 0 _ _ root rfl (by decide) (by decide)]
  have slashFits : (ascii "/").isPrefixOf (ascii "/gcm/recv/") = true := by decide
  have afterSlash : (ascii "/gcm/recv/").drop (ascii "/").length = ascii "gcm/recv/" := by decide
  simp only [List.foldl_cons, List.foldl_nil, slashFits, afterSlash, if_true]
  rw [step 44 1 _ _ top rfl (by decide) (by decide)]
  have others : (ascii "regist/").isPrefixOf (ascii "gcm/recv/") = false ∧
      (ascii "gcm/sen").isPrefixOf (ascii "gcm/recv/") = false ∧
      (ascii "gcm/pub").isPrefixOf (ascii "gcm/recv/") = false := by decide
  have stemFits : (ascii "gcm/rec").isPrefixOf (ascii "gcm/recv/") = true := by decide
  have afterStem : (ascii "gcm/recv/").drop (ascii "gcm/rec").length = ascii "v/" := by decide
  simp only [List.foldl_cons, List.foldl_nil, others, stemFits, afterStem, if_true,
    Bool.false_eq_true, if_false]
  rw [step 43 20 _ _ stem rfl (by decide) (by decide)]
  have leafFits : (ascii "v/").isPrefixOf (ascii "v/") = true := by decide
  have afterLeaf : (ascii "v/").drop (ascii "v/").length = [] := by decide
  simp only [List.foldl_cons, List.foldl_nil, leafFits, afterLeaf, if_true, List.nil_append]
  rw [Trie.find_param param (by decide) bottom (by decide)]
  by_cases found : rest ≠ [] ∧ slash ∉ rest
  · simp [found, Trie.updateFound, recvRule]
  · simp [found, Trie.updateFound]

theorem route_recv (rest : Bytes) :
    route .get (ascii "/gcm/recv/" ++ rest) =
      if ∀ c ∈ rest, isPathChar c = true then
        if rest.takeWhile (· != question) ≠ [] ∧ slash ∉ rest.takeWhile (· != question) then
          .handler recvRule [rest.takeWhile (· != question)]
        else .notFound
      else .invalid := by
  have front : urlOf (ascii "/gcm/recv/" ++ rest) =
      ascii "/gcm/recv/" ++ rest.takeWhile (· != question) := by
    rw [urlOf, List.takeWhile_append_of_pos (by decide +kernel)]
  have rule : rules[recvRule - firstRule]? = some ⟨ascii "/gcm/recv/<string>", [.get]⟩ := rfl
  by_cases good : ∀ c ∈ rest, isPathChar c = true
  · simp only [route, rawUrl_recv, if_pos good, front, find_recv]
    by_cases found : rest.takeWhile (· != question) ≠ [] ∧ slash ∉ rest.takeWhile (· != question)
    · simp only [if_pos found, rule]
      rfl
    · simp only [if_neg found]
      rfl
  · simp only [route, rawUrl_recv, if_neg good]

/-! What the handlers make of a token. -/

theorem unquote_plain {token : Text} (plain : token.val.head? ≠ some quote) :
    unquote token = some token := if_neg plain

theorem unquote_none {token : Text} : unquote token = none ↔ token.val = [quote] := by
  constructor
  · intro fails
    unfold unquote at fails
    split at fails
    · rename_i front
      obtain ⟨rest, text⟩ := List.head?_eq_some_iff.mp front
      simp only [text, List.drop_succ_cons, List.drop_zero] at fails
      split at fails
      · rename_i empty
        rw [text, empty]
      · cases fails
    · cases fails
  · intro single
    simp [unquote, single]

theorem unquote_quoted {token key : Text} {rest : Bytes} (quoted : token.val = quote :: rest)
    (stripped : unquote token = some key) : key.val = rest.dropLast := by
  unfold unquote at stripped
  simp only [quoted, List.head?_cons, if_true, List.drop_succ_cons, List.drop_zero] at stripped
  split at stripped
  · cases stripped
  · cases stripped
    rfl

/-- Stripping the marks changes a token even where the URL is cut at a question mark. -/
theorem dropLast_ne_takeWhile (rest : Bytes) :
    rest.dropLast ≠ quote :: rest.takeWhile (· != question) := by
  intro same
  by_cases query : question ∈ rest
  · obtain ⟨front, back, rfl, free⟩ := List.eq_append_cons_of_mem query
    rw [takeWhile_ne_append free] at same
    cases back with
    | nil =>
      rw [List.dropLast_concat] at same
      exact absurd (congrArg List.length same) (by simp)
    | cons c back =>
      have inside : question ∈ quote :: front := by
        rw [← same, List.dropLast_append_of_ne_nil (by simp), List.dropLast_cons_of_ne_nil (by simp)]
        simp
      rcases List.mem_cons.mp inside with equal | member
      · exact absurd equal (by decide)
      · exact free member
  · have length := congrArg List.length same
    rw [takeWhile_ne_eq_self.mpr query, List.length_dropLast, List.length_cons] at length
    omega

namespace PinocchioRun
variable (s : PinocchioRun)

theorem handle_send_ok {x : Option Posting} :
    (s.handle (.send x)).responses = s.responses ++ [(.send x, { code := 200 })] ↔
      ∃ token msg, posting x = .ok (token, msg) := by
  simp only [handle]
  cases result : posting x with
  | ok pushed => exact iff_of_true rfl ⟨_, _, rfl⟩
  | error response =>
    refine iff_of_false (fun same => ?_) (by simp)
    have code : response.code ≠ 200 := by
      unfold posting at result
      split at result
      · cases result
        decide
      · split at result
        · cases result
        · cases result
          decide
    have last := List.append_cancel_left same
    injection last with pair
    injection pair with _ same
    exact code (congrArg Response.code same)

theorem handle_send {x : Option Posting} {token msg : Text} (understood : posting x = .ok (token, msg)) :
    (s.handle (.send x)).db = s.db.addMsg token msg := by
  simp only [handle, understood]
  rfl

end PinocchioRun

open PinocchioRun

/-- A post to the token that is answered by 200 pushes on a key; then the URL with the token leads
to the handler of `/gcm/recv`, which does not reject it and reads that key. -/
def Agrees (t : Text) : Prop :=
  ∀ (s : PinocchioRun) (x : Posting), x.token = some t →
    (s.handle (.send (some x))).responses = s.responses ++ [(.send (some x), { code := 200 })] →
    ∃ token key message, route .get (ascii "/gcm/recv/" ++ t.val) = .handler recvRule [token.val] ∧
      (s.handle (.send (some x))).db.posted =
        s.db.posted ++ [(.lpush key message, Handler.pushed key)] ∧
      ∀ u : PinocchioRun, (u.handle (.recv token)).responses = u.responses ∧
        (u.handle (.recv token)).db.asked = u.db.asked ++ [.getMsg key]

/-- A token of 1 to 128 characters that a URL can have behind its last slash and in front of its
query, and that begins with no quotation mark. -/
def Servable (t : Text) : Prop :=
  t.val ≠ [] ∧ t.val.length ≤ 128 ∧ t.val.head? ≠ some quote ∧
    ∀ c ∈ t.val, (isUrlChar c = true ∨ c = hash) ∧ c ≠ slash

theorem Servable.route {t : Text} (servable : Servable t) :
    route .get (ascii "/gcm/recv/" ++ t.val) = .handler recvRule [t.val] := by
  obtain ⟨nonempty, _, _, chars⟩ := servable
  have whole : t.val.takeWhile (· != question) = t.val := by
    refine takeWhile_ne_eq_self.mpr fun member => ?_
    rcases (chars question member).1 with url | same
    · exact absurd url (by decide)
    · exact absurd same (by decide)
  have path : ∀ c ∈ t.val, isPathChar c = true := by
    intro c member
    rcases (chars c member).1 with url | same
    · simp [isPathChar, url]
    · simp [isPathChar, same]
  have free : slash ∉ t.val := fun member => (chars slash member).2 rfl
  rw [route_recv, if_pos path, whole, if_pos ⟨nonempty, free⟩]

theorem send_recv_agree (t : Text) : Agrees t ↔ t.val = [quote] ∨ Servable t := by
  constructor
  · intro agrees
    by_cases single : t.val = [quote]
    · exact Or.inl single
    obtain ⟨key, stripped⟩ := Option.ne_none_iff_exists'.mp (mt unquote_none.mp single)
    have understood : posting (some ⟨some t, some default⟩) = .ok (key, default) := by
      simp only [posting, Option.bind_some, stripped]
    obtain ⟨token, pushed, message, routed, posted, read⟩ :=
      agrees {} ⟨some t, some default⟩ rfl ((handle_send_ok _).mpr ⟨_, _, understood⟩)
    rw [handle_send _ understood] at posted
    obtain ⟨answered, asked⟩ := read {}
    -- The receive is not rejected, so it reads its own token.
    simp only [handle] at answered asked
    split at asked
    · cases asked
    rename_i short
    cases List.append_cancel_left asked
    cases List.append_cancel_left posted
    rw [route_recv] at routed
    split at routed
    case isFalse => cases routed
    rename_i path
    split at routed
    case isFalse => cases routed
    rename_i found
    injection routed with _ same
    have same : t.val.takeWhile (· != question) = key.val := (List.cons.inj same).1
    refine Or.inr ?_
    by_cases quoted : t.val.head? = some quote
    · obtain ⟨rest, text⟩ := List.head?_eq_some_iff.mp quoted
      have key := unquote_quoted text stripped
      rw [← same, text, List.takeWhile_cons_of_pos (by decide)] at key
      exact absurd key.symm (dropLast_ne_takeWhile rest)
    · have whole : key = t := Option.some.inj (stripped.symm.trans (unquote_plain quoted))
      subst whole
      rw [same] at found
      have noQuery := takeWhile_ne_eq_self.mp same
      refine ⟨found.1, by omega, quoted, fun c member => ⟨?_, ?_⟩⟩
      · have character := path c member
        have other : c ≠ question := ne_of_mem_of_not_mem member noQuery
        simp only [isPathChar, Bool.or_eq_true, decide_eq_true_eq] at character
        tauto
      · rintro rfl
        exact found.2 member
  · rintro (single | servable) s x token answered
    · obtain ⟨key, msg, understood⟩ := (handle_send_ok s).mp answered
      have none := unquote_none.mpr single
      simp [posting, token, none] at understood
    · obtain ⟨key, msg, understood⟩ := (handle_send_ok s).mp answered
      have same : key = t := by
        simp only [posting, token, Option.bind_some, unquote_plain servable.2.2.1] at understood
        split at understood
        · cases understood
          rename_i stripped _
          exact (Option.some.inj stripped).symm
        · cases understood
      subst same
      refine ⟨key, key, ⟨s.db.calls.length, msg⟩, servable.route, ?_, fun u => ?_⟩
      · rw [handle_send s understood]
        rfl
      · have short : ¬key.val.length > 128 := Nat.not_lt.mpr servable.2.1
        rw [handle, if_neg short]
        exact ⟨rfl, rfl⟩

/-- A token with a slash takes messages that no URL reads. -/
theorem send_recv_slash : ¬∀ t, Agrees t := by
  intro always
  let t : Text := ⟨ascii "a/b", by decide⟩
  let x : Posting := ⟨some t, some ⟨ascii "1", by decide⟩⟩
  obtain ⟨token, key, message, routed, _⟩ := always t {} x rfl rfl
  rw [route_recv, if_pos (by decide +kernel), if_neg (by decide +kernel)] at routed
  cases routed

end Pinocchio.Http

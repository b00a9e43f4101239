import Mathlib
import SyntaxRecovery.Proofs.Recovery.Deliveries
import SyntaxRecovery.Proofs.Word

/-!
# Token streams without an end

A token stream reads like a stream that never ends: its tokens, and then the last of them again and
again (`TokenStream.endless`). What lies ahead of the reading position is what is left of that when as
many tokens are dropped, and to advance is to take its tail, at the last token too
(`TokenStream.ahead_advance`). To rewind is to have all of it ahead again (`TokenStream.ahead_rewind`).
What lies behind are the tokens passed. Rewinding and advancing change no token
(`TokenStream.token?_moveAll`).

The reading is defined on numbers without a bound. As long as the tokens can be counted by a signed
word, the same steps on words give the same and none overflows (`TokenStream.wordToken?_eq`).
-/

set_option autoImplicit false

namespace SyntaxRecovery

namespace TokenStream

variable {s t : TokenStream}

/-! ## The tokens that a stream begins with -/

/-- An end of input is put at the end of tokens that do not end in one, and of no others. -/
theorem padded_cases (tokens : Array Token) :
    if tokens.back?.any Token.isEnding then padded tokens = tokens
    else ∃ ending : Token, ending.isEnding = true ∧ padded tokens = tokens.push ending := by
  unfold padded
  cases hlast : tokens.back? with
  | none =>
    have hempty : tokens = #[] := Array.back?_eq_none_iff.1 hlast
    rw [hempty]
    exact ⟨_, rfl, rfl⟩
  | some last =>
    dsimp only [Option.any_some]
    split
    · rfl
    · exact ⟨_, rfl, rfl⟩

/-- Tokens that end in an end of input are taken as they are. -/
theorem padded_of_ended (h : s.Ended) : padded s.tokens = s.tokens := by
  obtain ⟨last, hlast, hcode⟩ := h
  have hcases := padded_cases s.tokens
  rwa [hlast, Option.any_some, Token.isEnding, if_pos (decide_eq_true hcode)] at hcases

/-! ## The endless stream -/

/-- The last token. -/
def last (s : TokenStream) : Token :=
  have : s.lastPosition < s.tokens.size := Nat.sub_one_lt_of_lt s.position_lt
  s.tokens[s.lastPosition]

/-- The tokens, and then the last of them again and again. -/
def endless (s : TokenStream) : Stream' Token := s.tokens.toList ++ₛ Stream'.const s.last

/-- What has not been passed of the endless stream. -/
def ahead (s : TokenStream) : Stream' Token := s.endless.drop s.position

/-- Past the last token the endless stream stays at it. -/
theorem getElem?_min_lastPosition (s : TokenStream) (n : Nat) :
    s.tokens[min n s.lastPosition]? = some (s.endless.get n) := by
  have hpos := s.position_lt
  rcases Nat.lt_or_ge n s.tokens.size with hlt | hge
  · have hmin : min n s.lastPosition = n := Nat.min_eq_left (Nat.le_pred_of_lt hlt)
    rw [hmin, endless, Stream'.get_append_left n s.tokens.toList _ hlt, Array.getElem_toList]
    exact Array.getElem?_eq_getElem hlt
  · obtain ⟨m, rfl⟩ := Nat.exists_eq_add_of_le hge
    have hmin : min (s.tokens.size + m) s.lastPosition = s.lastPosition := by
      rw [lastPosition]
      omega
    have hright := Stream'.get_append_right m s.tokens.toList (Stream'.const s.last)
    rw [Array.length_toList, Stream'.get_const] at hright
    rw [hmin, endless, hright, last]
    exact Array.getElem?_eq_getElem _

/-- Streams of the same tokens have the same endless stream. -/
theorem endless_eq (h : t.tokens = s.tokens) : t.endless = s.endless := by
  apply Stream'.ext
  intro n
  have ht := getElem?_min_lastPosition t n
  rw [lastPosition, h] at ht
  exact Option.some.inj (ht.symm.trans (getElem?_min_lastPosition s n))

/-! ## Reading -/

/-- Ahead of the reading position the endless stream is read. -/
theorem token?_succ (s : TokenStream) (n : Nat) :
    s.token? ((n + 1 : Nat) : Int) = some (s.ahead.get n) := by
  change s.tokens[min (s.position + n) s.lastPosition]? = _
  rw [getElem?_min_lastPosition, ahead, Stream'.get_drop]

/-- To advance is to drop the first of the tokens ahead. At the last token this changes nothing, for
that token comes again. -/
theorem ahead_advance (s : TokenStream) : s.advance.ahead = s.ahead.tail := by
  have hendless : s.advance.endless = s.endless := endless_eq onward_advance.tokens_eq
  rw [ahead, ahead, hendless, Stream'.tail_drop']
  by_cases hlast : s.position = s.lastPosition
  · have hstay : s.advance.position = s.lastPosition := by
      rw [position_advance_eq_min, hlast]
      exact Nat.min_eq_right (Nat.le_succ _)
    apply Stream'.ext
    intro n
    rw [Stream'.get_drop, Stream'.get_drop, hstay, hlast, ← Option.some_inj,
      ← getElem?_min_lastPosition, ← getElem?_min_lastPosition]
    congr 1
    omega
  · rw [position_advance hlast]

/-- To rewind is to have all of the endless stream ahead. -/
theorem ahead_rewind (s : TokenStream) : s.rewind.ahead = s.endless := by
  have hendless : s.rewind.endless = s.endless := endless_eq rfl
  rw [ahead, hendless]
  rfl

/-- Behind the reading position lie the tokens passed. -/
theorem token?_neg_of_le {k : Nat} (hpos : 1 ≤ k) (hle : k ≤ s.position) :
    ∃ t, s.tokens[s.position - k]? = some t ∧ s.token? (-(k : Int)) = some t := by
  have hlt : s.position - k < s.tokens.size := Nat.lt_of_le_of_lt (Nat.sub_le _ _) s.position_lt
  have hget := Array.getElem?_eq_getElem hlt
  refine ⟨_, hget, ?_⟩
  obtain ⟨n, rfl⟩ := Nat.exists_eq_add_of_le' hpos
  change (if n < s.position then s.tokens[s.position - (n + 1)]? else none) = _
  rw [if_pos (Nat.lt_of_succ_le hle), hget]

/-- Nothing lies behind the first token. -/
theorem token?_neg_of_lt {k : Nat} (hlt : s.position < k) : s.token? (-(k : Int)) = none := by
  obtain ⟨n, rfl⟩ := Nat.exists_eq_add_of_le' (Nat.one_le_of_lt hlt)
  change (if n < s.position then s.tokens[s.position - (n + 1)]? else none) = none
  exact if_neg (Nat.not_lt.2 (Nat.le_of_lt_succ hlt))

/-! ## Reading with words -/

/-- The token at an offset, found with arithmetic on words; none if it overflows. -/
def wordToken? (s : TokenStream) (offset : Int64) : Option (Option Token) :=
  let distance := offset.toInt.natAbs
  if offset.toInt = 0 then some none
  else if offset.toInt < 0 then
    -- a step back past the first token is no overflow
    match Word.sub? s.position distance with
    | some place => some s.tokens[place]?
    | none => some none
  else do
    let past ← Word.add? s.position distance
    let place ← Word.sub? past 1
    let bound ← Word.sub? s.tokens.size 1
    some s.tokens[min place bound]?

/-- The position after an advance, found with arithmetic on words; none if it overflows. -/
def wordAdvance? (s : TokenStream) : Option Nat := do
  let bound ← Word.sub? s.tokens.size 1
  if s.position < bound then Word.add? s.position 1 else some s.position

/-- Going back needs no more than one subtraction, which may find that there is nothing to read. -/
theorem wordToken?_of_neg {offset : Int64} (hneg : offset.toInt < 0) :
    s.wordToken? offset = some (s.token? offset.toInt) := by
  obtain ⟨k, hk⟩ := Int.exists_eq_neg_ofNat hneg.le
  have hpos : 1 ≤ k := by omega
  have habs : offset.toInt.natAbs = k := by omega
  rw [wordToken?, habs, if_neg hneg.ne, if_pos hneg, hk]
  by_cases hle : k ≤ s.position
  · obtain ⟨t, hget, htoken⟩ := token?_neg_of_le hpos hle
    rw [Word.sub?_of_le hle, htoken]
    exact congrArg some hget
  · have hlt := Nat.not_le.1 hle
    rw [Word.sub?_of_lt hlt, token?_neg_of_lt hlt]

/-- The place of a token ahead fits into a word, as the offset and the number of tokens are no more
than half of what does. -/
theorem wordToken?_of_pos (hsize : s.tokens.size < 2 ^ 63) {offset : Int64} (hpos : 0 < offset.toInt) :
    s.wordToken? offset = some (s.token? offset.toInt) := by
  have hlt := s.position_lt
  have hupper := offset.toInt_lt
  obtain ⟨n, hn⟩ := Int.eq_succ_of_zero_lt hpos
  have habs : offset.toInt.natAbs = n + 1 := by omega
  have hsum : s.position + (n + 1) < Word.limit := by
    rw [Word.limit]
    omega
  have hplace : 1 ≤ s.position + (n + 1) := Nat.le_add_left 1 (s.position + n)
  have hbound : 1 ≤ s.tokens.size := Nat.one_le_of_lt hlt
  rw [wordToken?, habs, if_neg hpos.ne', if_neg hpos.not_gt, hn]
  simp only [Word.add?_of_lt hsum, Word.sub?_of_le hplace, Word.sub?_of_le hbound,
    Option.bind_eq_bind, Option.bind_some]
  rfl

/-- If the tokens can be counted by a signed word, no reading overflows. -/
theorem wordToken?_eq (hsize : s.tokens.size < 2 ^ 63) (offset : Int64) :
    s.wordToken? offset = some (s.token? offset.toInt) := by
  rcases lt_trichotomy offset.toInt 0 with hneg | hzero | hpos
  · exact wordToken?_of_neg hneg
  · rw [wordToken?, if_pos hzero, hzero]
    rfl
  · exact wordToken?_of_pos hsize hpos

/-- No advance overflows. -/
theorem wordAdvance?_eq (hsize : s.tokens.size < 2 ^ 63) :
    s.wordAdvance? = some s.advance.position := by
  have hpos := s.position_lt
  rw [wordAdvance?, Word.sub?_of_le (Nat.one_le_of_lt hpos), Option.bind_eq_bind, Option.bind_some,
    position_advance_eq_min, lastPosition]
  split
  · next hlt =>
    have hsum : s.position + 1 < Word.limit := by
      rw [Word.limit]
      omega
    rw [Word.add?_of_lt hsum, Nat.min_eq_left hlt]
  · next hge =>
    congr 1
    omega

/-! ## Moving about -/

/-- A change of the reading position. -/
inductive Motion where
  /-- Past the current token. -/
  | advance
  /-- Back to the first token. -/
  | rewind

/-- The stream after a motion. -/
def move (s : TokenStream) : Motion → TokenStream
  | .advance => s.advance
  | .rewind => s.rewind

/-- The stream after motions, made in order. -/
def moveAll (s : TokenStream) (motions : List Motion) : TokenStream := motions.foldl move s

theorem tokens_move (s : TokenStream) (m : Motion) : (s.move m).tokens = s.tokens := by
  cases m with
  | advance => exact onward_advance.tokens_eq
  | rewind => rfl

theorem tokens_moveAll (s : TokenStream) (motions : List Motion) :
    (s.moveAll motions).tokens = s.tokens := by
  induction motions generalizing s with
  | nil => rfl
  | cons m motions ih =>
    rw [moveAll, List.foldl_cons]
    exact (ih (s.move m)).trans (tokens_move s m)

/-- A stream made from tokens, after any motions. Its tokens are those, with an end of input put at the
end unless they end in one, and it stands at one of them. Ahead of its position the endless stream is
read, before and after an advance; behind it lie the tokens passed, and offset zero is no token. If
the tokens can be counted by a signed word, reading at whatever offset and advancing overflow nowhere.
A stream made from its tokens has the same ones. -/
theorem token?_moveAll (tokens : Array Token) (motions : List Motion) :
    let s := (ofTokens tokens).moveAll motions
    (if tokens.back?.any Token.isEnding then s.tokens = tokens
      else ∃ ending : Token, ending.isEnding = true ∧ s.tokens = tokens.push ending) ∧
    s.position ≤ s.lastPosition ∧
    (∀ k : Nat, 1 ≤ k → s.token? k = some (s.endless.get (s.position + k - 1))) ∧
    (∀ k : Nat, 1 ≤ k → s.advance.token? k = s.token? (k + 1)) ∧
    s.token? 0 = none ∧
    (∀ k : Nat, 1 ≤ k → k ≤ s.position →
      ∃ t, s.tokens[s.position - k]? = some t ∧ s.token? (-k) = some t) ∧
    (∀ k : Nat, s.position < k → s.token? (-k) = none) ∧
    (s.tokens.size < 2 ^ 63 → s.wordAdvance? = some s.advance.position ∧
      ∀ offset : Int64, s.wordToken? offset = some (s.token? offset.toInt)) ∧
    (ofTokens s.tokens).tokens = s.tokens := by
  intro s
  have htokens : s.tokens = padded tokens := tokens_moveAll (ofTokens tokens) motions
  refine ⟨?_, position_le_lastPosition, ?_, ?_, rfl, ?_, ?_, ?_, ?_⟩
  · rw [htokens]
    exact padded_cases tokens
  · intro k hk
    obtain ⟨n, rfl⟩ := Nat.exists_eq_add_of_le' hk
    rw [token?_succ, ahead, Stream'.get_drop]
    rfl
  · intro k hk
    obtain ⟨n, rfl⟩ := Nat.exists_eq_add_of_le' hk
    rw [token?_succ, ahead_advance, Stream'.get_tail]
    exact (token?_succ s (n + 1)).symm
  · intro k hk hle
    exact token?_neg_of_le hk hle
  · intro k hlt
    exact token?_neg_of_lt hlt
  · intro hsize
    exact ⟨wordAdvance?_eq hsize, wordToken?_eq hsize⟩
  · exact padded_of_ended (ended_of_padded htokens)

/-- At its last token a stream of two tokens reads the end of the input over and over. -/
example :
    let s := (ofCodes [1, 2]).moveAll [.advance, .rewind, .advance, .advance, .advance]
    s.position = 2 ∧ (s.token? 1).map Token.code = some .endOfInput ∧ s.token? 5 = s.token? 1 ∧
      (s.token? (-2)).map Token.code = some 1 := by
  decide

end TokenStream

end SyntaxRecovery

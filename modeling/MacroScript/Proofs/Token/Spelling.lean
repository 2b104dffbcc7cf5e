import Mathlib
import MacroScript.Proofs.Source.Position
import MacroScript.Token.Stream

/-!
# Spellings of tokens

The characters that a token takes: a run of one class, a text between two
quotes, or a character alone. Scanning finds a token exactly where its spelling
stands at the cursor and, if it is a run, does not go on behind it. From this
follows what a stream of tokens is: ignored characters, then a spelled token and
the stream behind it, or the end of input, or a quote after which no quote
follows. Characters lead from one cursor to another if they are all that stands
between them but for ignored ones; a piece of a text is read off in this way.
-/
namespace MacroScript

namespace TokenKind

/-- Whether the tokens of a kind are runs of characters of their class. -/
def isRun : TokenKind → Bool
  | symbol | number => true
  | _ => false

/-- Whether the tokens of a kind are single characters. -/
def isSingle : TokenKind → Bool
  | openParen | closeParen | comma | illegal => true
  | _ => false

/-- The text of a token of some kind, and the characters that the token takes. -/
inductive Spelling : TokenKind → List Char → List Char → Prop
  | run {kind : TokenKind} {cs : List Char} : kind.isRun = true → cs ≠ [] →
      (∀ c ∈ cs, ofChar c = kind) → Spelling kind cs cs
  | quoted {opening closing : Char} {text : List Char} : ofChar opening = string →
      ofChar closing = string → (∀ c ∈ text, ofChar c ≠ string) →
      Spelling string text (opening :: text ++ [closing])
  | single {kind : TokenKind} {c : Char} : kind.isSingle = true → ofChar c = kind →
      Spelling kind [c] [c]

/-- A run of this kind does not go on with these characters. -/
def StopsAt (kind : TokenKind) (rest : List Char) : Prop :=
  kind.isRun = true → ∀ c ∈ rest.head?, ofChar c ≠ kind

theorem Spelling.ne_nil {kind : TokenKind} {text chars : List Char}
    (h : Spelling kind text chars) : chars ≠ [] := by
  cases h with
  | run _ hcs _ => exact hcs
  | quoted => simp
  | single => simp

theorem Spelling.ne_finish {kind : TokenKind} {text chars : List Char}
    (h : Spelling kind text chars) : kind ≠ finish := by
  rintro rfl
  cases h with
  | run hrun => simp [isRun] at hrun
  | single hsingle => simp [isSingle] at hsingle

theorem Spelling.head {kind : TokenKind} {text chars : List Char}
    (h : Spelling kind text chars) : ∃ c cs, chars = c :: cs ∧ ofChar c = kind := by
  cases h with
  | @run kind cs _ hcs hall =>
      obtain ⟨c, cs, rfl⟩ := List.exists_cons_of_ne_nil hcs
      exact ⟨c, cs, rfl, hall c (by simp)⟩
  | quoted hopening => exact ⟨_, _, rfl, hopening⟩
  | single _ hc => exact ⟨_, _, rfl, hc⟩

theorem stopsAt_of_not_isRun {kind : TokenKind} (h : kind.isRun = false) (rest : List Char) :
    kind.StopsAt rest := by simp [StopsAt, h]

theorem Spelling.of_symbol {text chars : List Char} (h : Spelling symbol text chars) :
    text ≠ [] ∧ ∀ c ∈ text, ofChar c = symbol := by
  cases h with
  | run _ hcs hall => exact ⟨hcs, hall⟩
  | single hsingle => simp [isSingle] at hsingle

theorem Spelling.eq_of_symbol {text chars : List Char} (h : Spelling symbol text chars) :
    text = chars := by
  cases h with
  | run => rfl
  | single => rfl

theorem Spelling.of_string {text chars : List Char} (h : Spelling string text chars) :
    ∀ c ∈ text, ofChar c ≠ string := by
  cases h with
  | run hrun => simp [isRun] at hrun
  | quoted _ _ hall => exact hall
  | single hsingle => simp [isSingle] at hsingle

theorem ofChar_of_isDigit {c : Char} (h : c.isDigit = true) : ofChar c = number := by
  have halpha : c.isAlpha = false := by
    simp only [Char.isDigit, Char.isAlpha, Char.isUpper, Char.isLower, Bool.and_eq_true,
      ge_iff_le, decide_eq_true_eq, UInt32.le_iff_toNat_le, Bool.or_eq_false_iff,
      Bool.and_eq_false_iff, decide_eq_false_iff_not] at h ⊢
    simp at h ⊢
    omega
  have hmark : c ≠ '_' ∧ c ≠ '-' := by
    constructor <;> rintro rfl <;> simp [Char.isDigit] at h
  simp [ofChar, h, halpha, hmark]

theorem stopsAt_nil (kind : TokenKind) : kind.StopsAt [] := by simp [StopsAt]

theorem stopsAt_cons {kind : TokenKind} {c : Char} (rest : List Char) (h : ofChar c ≠ kind) :
    kind.StopsAt (c :: rest) := by simp [StopsAt, h]

theorem stopsAt_single (kind : TokenKind) {c : Char} {rest : List Char}
    (h : (ofChar c).isRun = false) : kind.StopsAt (c :: rest) := by
  intro hrun d hd he
  cases hd
  rw [he, hrun] at h
  cases h

theorem StopsAt.append {kind : TokenKind} {chars rest more : List Char}
    (h : kind.StopsAt (chars ++ rest)) (hmore : kind.StopsAt rest → kind.StopsAt more) :
    kind.StopsAt (chars ++ more) := by
  cases chars with
  | nil => exact hmore h
  | cons c chars => exact h

/-- Whatever follows a token, the token or a longer one of its kind is spelled there. -/
theorem Spelling.extend {kind : TokenKind} {text chars : List Char}
    (h : Spelling kind text chars) (more : List Char) :
    ∃ run rest, more = run ++ rest ∧ Spelling kind (text ++ run) (chars ++ run) ∧
      kind.StopsAt rest ∧ (kind.isRun = false → run = []) := by
  cases h with
  | run hrun hcs hall =>
      obtain ⟨run, rest, rfl, hmore, hstop⟩ := exists_run kind.includes more
      refine ⟨run, rest, rfl, .run hrun (by simp [hcs]) ?_, ?_, by simp [hrun]⟩
      · intro c hc
        rcases List.mem_append.mp hc with hc | hc
        · exact hall c hc
        · exact (kind.includes_iff c).mp (hmore c hc)
      · intro _ c hc he
        exact Bool.false_ne_true ((hstop c hc).symm.trans ((kind.includes_iff c).mpr he))
  | quoted ho hq hall =>
      exact ⟨[], more, rfl, by simpa using .quoted ho hq hall, by simp [StopsAt, isRun],
        fun _ => rfl⟩
  | single hsingle hc =>
      refine ⟨[], more, rfl, by simpa using .single hsingle hc, ?_, fun _ => rfl⟩
      apply stopsAt_of_not_isRun
      revert hsingle
      cases kind <;> simp [isSingle, isRun]

end TokenKind

namespace Cursor

theorem behind_eq_past {cursor : Cursor} {c : Char} {rest : List Char}
    (h : cursor.rest = c :: rest) : cursor.behind = cursor.past [c] rest := by
  simp only [behind, advance?, h, Option.getD_some, past, Mark.pass_eq_past]

theorem nextKind_cons {cursor : Cursor} {c : Char} {rest : List Char}
    (h : cursor.rest = c :: rest) : cursor.nextKind = .ofChar c := by simp [nextKind, h]

theorem skipIllegals_eq_past {cursor : Cursor} {gap rest : List Char}
    (hrest : cursor.rest = gap ++ rest) (hgap : ∀ c ∈ gap, TokenKind.ofChar c = .illegal)
    (hstop : ∀ c ∈ rest.head?, TokenKind.ofChar c ≠ .illegal) :
    cursor.skipIllegals = cursor.past gap rest :=
  advanceRun_run hrest (fun c hc => by simpa using hgap c hc)
    fun c hc => by simpa [TokenKind.includes] using hstop c hc

theorem scanHere_of_spelling {cursor : Cursor} {kind : TokenKind} {text chars rest : List Char}
    (h : kind.Spelling text chars) (hstop : kind.StopsAt rest)
    (hrest : cursor.rest = chars ++ rest) :
    cursor.scanHere
      = (.token ⟨kind, String.ofList text, cursor.location⟩, cursor.past chars rest) := by
  obtain ⟨c, cs, hchars, hc⟩ := h.head
  have hkind : cursor.nextKind = kind := by
    rw [nextKind_cons (hrest.trans (by rw [hchars]; rfl)), hc]
  cases h with
  | run hrun _ hall =>
      have hin : ∀ d ∈ text, kind.includes d = true := fun d hd => by simpa using hall d hd
      have hout : ∀ d ∈ rest.head?, kind.includes d = false := fun d hd => by
        simpa [TokenKind.includes] using hstop hrun d hd
      have htake := takeWhile_run hin hout
      have hadvance := advanceRun_run hrest hin hout
      rw [← hrest] at htake
      cases kind <;> simp only [TokenKind.isRun, Bool.false_eq_true] at hrun <;>
        simp only [scanHere, hkind, htake, hadvance]
  | @quoted opening closing text ho hq hall =>
      have hin : ∀ d ∈ text, (!TokenKind.string.includes d) = true := fun d hd => by
        simpa [TokenKind.includes] using hall d hd
      have hout : ∀ d ∈ (closing :: rest).head?, (!TokenKind.string.includes d) = false := by
        simp [hq]
      have hbehind : cursor.behind = cursor.past [opening] (text ++ closing :: rest) :=
        behind_eq_past (by simpa using hrest)
      have hinside := cursor.past_rest [opening] (text ++ closing :: rest)
      have hadvance := advanceRun_run hinside hin hout
      have hclosing := behind_eq_past (cursor.past_rest ([opening] ++ text) (closing :: rest))
      simp only [scanHere, hkind, hbehind, hinside, hadvance, takeWhile_run hin hout, past_past,
        atEnd, past_rest, List.isEmpty_cons, Bool.false_eq_true, if_false, hclosing]
      simp
  | @single kind c hsingle _ =>
      have hbehind : cursor.behind = cursor.past [c] rest := behind_eq_past hrest
      cases kind <;> simp only [TokenKind.isSingle, Bool.false_eq_true] at hsingle <;>
        simp [scanHere, hkind, hrest, hbehind]

theorem scanHere_of_finish {cursor : Cursor} (h : cursor.nextKind = .finish) :
    cursor.scanHere = (.token ⟨.finish, "", cursor.location⟩, cursor) := by
  simp only [scanHere, h]

/-- A quote after which no quote follows takes everything. -/
theorem scanHere_of_unclosed {cursor : Cursor} {opening : Char} {rest : List Char}
    (hrest : cursor.rest = opening :: rest) (ho : TokenKind.ofChar opening = .string)
    (hall : ∀ c ∈ rest, TokenKind.ofChar c ≠ .string) :
    cursor.scanHere = (.unterminated cursor.location, cursor.past (opening :: rest) []) := by
  have hkind : cursor.nextKind = .string := by rw [nextKind_cons hrest, ho]
  have hbehind : cursor.behind = cursor.past [opening] (rest ++ []) := by
    rw [List.append_nil, behind_eq_past hrest]
  have hadvance : cursor.behind.advanceRun (fun c => !TokenKind.string.includes c)
      = cursor.past (opening :: rest) [] := by
    rw [hbehind, advanceRun_run (cursor.past_rest [opening] (rest ++ []))
      (fun c hc => by simpa [TokenKind.includes] using hall c hc) (by simp), past_past]
    rfl
  simp only [scanHere, hkind, hadvance, atEnd, past_rest, List.isEmpty_nil, if_true]

/-- What stands at a cursor: a spelled token, the end of input, or a quote that is not closed. -/
theorem scannable (cursor : Cursor) :
    (∃ kind text chars rest, cursor.rest = chars ++ rest ∧
        TokenKind.Spelling kind text chars ∧ kind.StopsAt rest) ∨
      cursor.nextKind = .finish ∨
      ∃ opening rest, cursor.rest = opening :: rest ∧ TokenKind.ofChar opening = .string ∧
        ∀ c ∈ rest, TokenKind.ofChar c ≠ .string := by
  cases hrest : cursor.rest with
  | nil => exact .inr (.inl (by simp [nextKind, hrest]))
  | cons c cs =>
      have hspelled {kind : TokenKind} {text chars : List Char} (h : kind.Spelling text chars)
          (rest : List Char) (hcs : c :: cs = chars ++ rest) :
          ∃ kind text chars rest, c :: cs = chars ++ rest ∧
            TokenKind.Spelling kind text chars ∧ kind.StopsAt rest := by
        obtain ⟨run, rest, rfl, hrun, hstop, _⟩ := h.extend rest
        exact ⟨_, _, _, rest, by rw [hcs, List.append_assoc], hrun, hstop⟩
      by_cases hs : (TokenKind.ofChar c).isSingle = true
      · exact .inl (hspelled (.single hs rfl) cs rfl)
      by_cases hr : (TokenKind.ofChar c).isRun = true
      · exact .inl (hspelled (.run hr (List.cons_ne_nil c []) (by simp)) cs rfl)
      by_cases hq : TokenKind.ofChar c = .string
      · obtain ⟨text, rest, hcs, htext, hstop⟩ :=
          exists_run (fun d => !TokenKind.string.includes d) cs
        have hall : ∀ d ∈ text, TokenKind.ofChar d ≠ .string := fun d hd => by
          simpa [TokenKind.includes] using htext d hd
        cases rest with
        | nil => exact .inr (.inr ⟨c, cs, rfl, hq, by simpa [hcs] using hall⟩)
        | cons closing rest =>
            have hclosing : TokenKind.ofChar closing = .string := by simpa using hstop closing rfl
            exact .inl (hspelled (.quoted hq hclosing hall) rest (by simp [hcs]))
      · refine .inr (.inl ?_)
        rw [nextKind_cons hrest]
        revert hs hr hq
        cases TokenKind.ofChar c <;> simp [TokenKind.isSingle, TokenKind.isRun]

end Cursor

namespace TokenStream

theorem ofCursor_of_token {skipping : Bool} {cursor after : Cursor} {token : Token}
    (h : cursor.scan skipping = (.token token, after)) (hk : token.kind ≠ .finish) :
    ofCursor skipping cursor = .token token after (ofCursor skipping after) := by
  rw [ofCursor]
  split <;> rename_i h' <;> rw [h] at h' <;> cases h'
  rw [dif_neg hk]

theorem ofCursor_of_finish {skipping : Bool} {cursor after : Cursor} {token : Token}
    (h : cursor.scan skipping = (.token token, after)) (hk : token.kind = .finish) :
    ofCursor skipping cursor = .finished after := by
  rw [ofCursor]
  split <;> rename_i h' <;> rw [h] at h' <;> cases h'
  rw [dif_pos hk]

theorem ofCursor_of_unterminated {skipping : Bool} {cursor after : Cursor} {opening : Location}
    (h : cursor.scan skipping = (.unterminated opening, after)) :
    ofCursor skipping cursor = .unterminated opening after := by
  rw [ofCursor]
  split <;> rename_i h' <;> rw [h] at h' <;> cases h'
  rfl

theorem ofCursor_congr {skipping : Bool} {cursor cursor' : Cursor}
    (h : cursor.scan skipping = cursor'.scan skipping) :
    ofCursor skipping cursor = ofCursor skipping cursor' := by
  rcases hscan : cursor'.scan skipping with ⟨lexeme, after⟩
  rw [hscan] at h
  cases lexeme with
  | unterminated opening =>
      rw [ofCursor_of_unterminated h, ofCursor_of_unterminated hscan]
  | token token =>
      by_cases hk : token.kind = .finish
      · rw [ofCursor_of_finish h hk, ofCursor_of_finish hscan hk]
      · rw [ofCursor_of_token h hk, ofCursor_of_token hscan hk]

/-- Ignored characters at the front of a text do not matter. -/
theorem ofCursor_past_gap (cursor : Cursor) {gap : List Char} (rest : List Char)
    (hgap : ∀ c ∈ gap, TokenKind.ofChar c = .illegal) :
    ofCursor true (cursor.past [] (gap ++ rest)) = ofCursor true (cursor.past gap rest) := by
  obtain ⟨more, tail, rfl, hmore, hstop⟩ := exists_run TokenKind.illegal.includes rest
  have hin : ∀ c ∈ more, TokenKind.ofChar c = .illegal := fun c hc => by simpa using hmore c hc
  have hout : ∀ c ∈ tail.head?, TokenKind.ofChar c ≠ .illegal := fun c hc => by
    simpa [TokenKind.includes] using hstop c hc
  have hall : ∀ c ∈ gap ++ more, TokenKind.ofChar c = .illegal := fun c hc =>
    (List.mem_append.mp hc).elim (hgap c) (hin c)
  have hskip := Cursor.skipIllegals_eq_past (cursor.past_rest gap (more ++ tail)) hin hout
  have hskip' : (cursor.past [] (gap ++ (more ++ tail))).skipIllegals =
      (cursor.past [] (gap ++ (more ++ tail))).past (gap ++ more) tail :=
    Cursor.skipIllegals_eq_past (by simp) hall hout
  rw [Cursor.past_past] at hskip hskip'
  exact ofCursor_congr (by rw [Cursor.scan, Cursor.scan, hskip, hskip']; rfl)

/-- The stream at a cursor, read off the characters that follow: a gap of ignored characters and
then a spelled token, the end of input, or a quote that is not closed. -/
inductive Unfolds (cursor : Cursor) : TokenStream → Prop
  | token {kind : TokenKind} {gap text chars rest : List Char} :
      cursor.rest = gap ++ (chars ++ rest) → (∀ c ∈ gap, TokenKind.ofChar c = .illegal) →
      kind ≠ .illegal → kind.Spelling text chars → kind.StopsAt rest →
      Unfolds cursor (.token
        ⟨kind, String.ofList text, (cursor.past gap (chars ++ rest)).location⟩
        (cursor.past (gap ++ chars) rest) (ofCursor true (cursor.past (gap ++ chars) rest)))
  | finished {gap rest : List Char} :
      cursor.rest = gap ++ rest → (∀ c ∈ gap, TokenKind.ofChar c = .illegal) →
      (∀ c ∈ rest.head?, TokenKind.ofChar c = .finish) →
      Unfolds cursor (.finished (cursor.past gap rest))
  | unterminated {opening : Char} {gap rest : List Char} :
      cursor.rest = gap ++ opening :: rest → (∀ c ∈ gap, TokenKind.ofChar c = .illegal) →
      TokenKind.ofChar opening = .string → (∀ c ∈ rest, TokenKind.ofChar c ≠ .string) →
      Unfolds cursor (.unterminated (cursor.past gap (opening :: rest)).location
        (cursor.past (gap ++ opening :: rest) []))

theorem Unfolds.eq {cursor : Cursor} {stream : TokenStream} (h : Unfolds cursor stream) :
    stream = ofCursor true cursor := by
  cases h with
  | @token kind gap text chars rest hrest hgap hkind hspell hstop =>
      obtain ⟨c, cs, hchars, hc⟩ := hspell.head
      have hskip : cursor.skipIllegals = cursor.past gap (chars ++ rest) :=
        Cursor.skipIllegals_eq_past hrest hgap (by simp [hchars, hc, hkind])
      have hscan := Cursor.scanHere_of_spelling hspell hstop (cursor.past_rest gap (chars ++ rest))
      rw [Cursor.past_past] at hscan
      refine (ofCursor_of_token ?_ hspell.ne_finish).symm
      rw [Cursor.scan, if_pos rfl, hskip, hscan]
  | @finished gap rest hrest hgap hstop =>
      have hskip : cursor.skipIllegals = cursor.past gap rest :=
        Cursor.skipIllegals_eq_past hrest hgap fun c hc => by simp [hstop c hc]
      have hkind : (cursor.past gap rest).nextKind = .finish := by
        cases rest with
        | nil => simp [Cursor.nextKind]
        | cons c rest => rw [Cursor.nextKind_cons (cursor.past_rest gap _), hstop c rfl]
      have hscan : cursor.scan true =
          (.token ⟨.finish, "", (cursor.past gap rest).location⟩, cursor.past gap rest) := by
        rw [Cursor.scan, if_pos rfl, hskip, Cursor.scanHere_of_finish hkind]
      exact (ofCursor_of_finish hscan rfl).symm
  | @unterminated opening gap rest hrest hgap ho hall =>
      have hskip : cursor.skipIllegals = cursor.past gap (opening :: rest) :=
        Cursor.skipIllegals_eq_past hrest hgap (by simp [ho])
      have hscan := Cursor.scanHere_of_unclosed (cursor.past_rest gap (opening :: rest)) ho hall
      rw [Cursor.past_past] at hscan
      refine (ofCursor_of_unterminated ?_).symm
      rw [Cursor.scan, if_pos rfl, hskip, hscan]

theorem ofCursor_past_token (cursor : Cursor) {kind : TokenKind} {gap text chars rest : List Char}
    (former : List Char) (hgap : ∀ c ∈ gap, TokenKind.ofChar c = .illegal)
    (hkind : kind ≠ .illegal) (hspell : kind.Spelling text chars) (hstop : kind.StopsAt rest) :
    ofCursor true (cursor.past [] (gap ++ chars ++ rest)) =
      .token ⟨kind, String.ofList text, (cursor.past gap former).location⟩
        (cursor.past (gap ++ chars) rest) (ofCursor true (cursor.past (gap ++ chars) rest)) := by
  have hunfolds : Unfolds (cursor.past [] (gap ++ chars ++ rest)) _ :=
    .token (by simp : _ = gap ++ (chars ++ rest)) hgap hkind hspell hstop
  have hstream := hunfolds.eq
  rw [Cursor.past_past, Cursor.past_past, List.nil_append, List.nil_append,
    cursor.location_past _ _ former] at hstream
  exact hstream.symm

theorem unfolds (cursor : Cursor) : Unfolds cursor (ofCursor true cursor) := by
  obtain ⟨gap, tail, hrest, hgap, hstop⟩ := exists_run TokenKind.illegal.includes cursor.rest
  have hin : ∀ c ∈ gap, TokenKind.ofChar c = .illegal := fun c hc => by simpa using hgap c hc
  have hout : ∀ c ∈ tail.head?, TokenKind.ofChar c ≠ .illegal := fun c hc => by
    simpa [TokenKind.includes] using hstop c hc
  suffices h : ∃ stream, Unfolds cursor stream by
    obtain ⟨stream, h⟩ := h
    exact h.eq ▸ h
  rcases (cursor.past gap tail).scannable with
    ⟨kind, text, chars, rest, htail, hspell, hends⟩ | hfinish | ⟨opening, rest, htail, ho, hall⟩
  · rw [Cursor.past_rest] at htail
    subst htail
    obtain ⟨c, cs, rfl, hc⟩ := hspell.head
    exact ⟨_, .token hrest hin (hc ▸ hout c rfl) hspell hends⟩
  · refine ⟨_, .finished hrest hin fun c hc => ?_⟩
    cases tail with
    | nil => simp at hc
    | cons d tail =>
        rw [Cursor.nextKind_cons (cursor.past_rest gap _)] at hfinish
        simpa [← Option.some.inj hc] using hfinish
  · rw [Cursor.past_rest] at htail
    subst htail
    exact ⟨_, .unterminated hrest hin ho hall⟩

end TokenStream

/-- The characters of a token stand somewhere behind a cursor, and the other cursor stands right
behind the last of them. -/
def Token.EndsAt (token : Token) (cursor after : Cursor) : Prop :=
  ∃ passed chars rest, cursor.rest = passed ++ (chars ++ rest) ∧
    token.kind.Spelling token.text.toList chars ∧
    token.location = (cursor.past passed (chars ++ rest)).location ∧
    after = cursor.past (passed ++ chars) rest

theorem Token.EndsAt.trans {token next : Token} {cursor middle after : Cursor}
    (h : token.EndsAt cursor middle) (h' : next.EndsAt middle after) :
    next.EndsAt cursor after := by
  obtain ⟨passed, chars, rest, hrest, _, _, rfl⟩ := h
  obtain ⟨passed', chars', rest', hrest', hspell, hlocation, rfl⟩ := h'
  rw [Cursor.past_rest] at hrest'
  subst hrest'
  rw [Cursor.past_past] at hlocation ⊢
  refine ⟨passed ++ chars ++ passed', chars', rest', by simp [hrest], hspell, hlocation, ?_⟩
  simp only [List.append_assoc]

/-- The first token of a stream ends where the rest of the stream begins. -/
theorem TokenStream.endsAt_of_ofCursor {cursor after : Cursor} {token : Token}
    {more : TokenStream} (h : ofCursor true cursor = .token token after more) :
    token.EndsAt cursor after ∧ more = ofCursor true after := by
  have hunfolds := unfolds cursor
  rw [h] at hunfolds
  cases hunfolds with
  | @token kind gap text chars rest hrest _ _ hspell _ =>
      exact ⟨⟨gap, chars, rest, hrest, by simpa using hspell, rfl, rfl⟩, rfl⟩

namespace Cursor

/-- Some characters lead from a cursor to another one, behind ignored characters. -/
def Reaches (cursor : Cursor) (chars : List Char) (after : Cursor) : Prop :=
  ∃ gap, (∀ c ∈ gap, TokenKind.ofChar c = .illegal) ∧
    cursor.rest = gap ++ (chars ++ after.rest) ∧ after = cursor.past (gap ++ chars) after.rest

variable {cursor after : Cursor}

theorem reaches_rest (cursor : Cursor) : cursor.Reaches cursor.rest (cursor.past cursor.rest []) :=
  ⟨[], by simp, by simp, by simp⟩

theorem Reaches.append {chars more : List Char} (h : cursor.Reaches (chars ++ more) after) :
    ∃ middle, cursor.Reaches chars middle ∧ middle.Reaches more after ∧
      middle.rest = more ++ after.rest := by
  obtain ⟨gap, hgap, hrest, hafter⟩ := h
  refine ⟨cursor.past (gap ++ chars) (more ++ after.rest), ⟨gap, hgap, by simp [hrest], by simp⟩,
    ⟨[], by simp, by simp, ?_⟩, by simp⟩
  rw [past_past]
  simpa using hafter

theorem Reaches.skip {c : Char} {chars : List Char} (h : cursor.Reaches (c :: chars) after)
    (hc : TokenKind.ofChar c = .illegal) : cursor.Reaches chars after := by
  obtain ⟨gap, hgap, hrest, hafter⟩ := h
  refine ⟨gap ++ [c], ?_, by simp [hrest], by simpa using hafter⟩
  intro d hd
  rcases List.mem_append.mp hd with hd | hd
  · exact hgap d hd
  · exact List.mem_singleton.mp hd ▸ hc

theorem Reaches.token {kind : TokenKind} {text chars : List Char}
    (h : cursor.Reaches chars after) (hspell : kind.Spelling text chars)
    (hkind : kind ≠ .illegal) (hstop : kind.StopsAt after.rest) :
    ∃ location, TokenStream.ofCursor true cursor =
      .token ⟨kind, String.ofList text, location⟩ after (.ofCursor true after) := by
  obtain ⟨gap, hgap, hrest, hafter⟩ := h
  have hstream := (TokenStream.Unfolds.token hrest hgap hkind hspell hstop).eq
  rw [← hafter] at hstream
  exact ⟨_, hstream.symm⟩

theorem Reaches.single {c : Char} (h : cursor.Reaches [c] after) (kind : TokenKind)
    (hc : TokenKind.ofChar c = kind) (hsingle : kind.isSingle = true) (hkind : kind ≠ .illegal) :
    ∃ location, TokenStream.ofCursor true cursor =
      .token ⟨kind, String.ofList [c], location⟩ after (.ofCursor true after) := by
  refine h.token (.single hsingle hc) hkind (TokenKind.stopsAt_of_not_isRun ?_ _)
  revert hsingle
  cases kind <;> simp [TokenKind.isSingle, TokenKind.isRun]

theorem Reaches.finished (h : cursor.Reaches [] after)
    (hend : after.rest = []) : TokenStream.ofCursor true cursor = .finished after := by
  obtain ⟨gap, hgap, hrest, hafter⟩ := h
  rw [hend] at hrest hafter
  rw [hafter, List.append_nil]
  exact (TokenStream.Unfolds.finished hrest hgap (by simp)).eq.symm

theorem reaches_self (cursor : Cursor) : cursor.Reaches [] cursor :=
  ⟨[], by simp, by simp, rfl⟩

end Cursor

end MacroScript

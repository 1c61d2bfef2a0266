import Mathlib
import Cadence.Yaml.Lexer

/-!
# Where problems of tokens come from

Nearly every problem of a text says that it is malformed. The only things that do not exist and that
the lexer can be asked for are the character of an escape that goes too far, and a version with too many
digits.
-/

namespace Cadence.Yaml

/-! ## How results end -/

section

variable {α β : Type} {x : Except Problem α} {next : α → Except Problem β}
  {fails : Problem → Prop} {middle holds : α → Prop} {holds' : β → Prop}

/-- A result that has a property, or a problem that has another one. -/
def Ends (x : Except Problem α) (fails : Problem → Prop) (holds : α → Prop) : Prop :=
  match x with
  | .ok a => holds a
  | .error e => fails e

theorem Ends.bind (h : Ends x fails middle) (hnext : ∀ a, middle a → Ends (next a) fails holds') :
    Ends (x >>= next) fails holds' := by
  cases x with
  | ok a => exact hnext a h
  | error e => exact h

theorem Ends.ite {c : Prop} [Decidable c] {y : Except Problem α} (hx : Ends x fails holds)
    (hy : Ends y fails holds) : Ends (if c then x else y) fails holds := by
  split
  · exact hx
  · exact hy

theorem Ends.imp {fails' : Problem → Prop} (h : Ends x fails middle) (hfails : ∀ e, fails e → fails' e)
    (hholds : ∀ a, middle a → holds a) : Ends x fails' holds := by
  cases x with
  | ok a => exact hholds a h
  | error e => exact hfails e h

theorem Ends.mapError {fails' : Problem → Prop} {f : Problem → Problem} (h : Ends x fails holds)
    (hfails : ∀ e, fails e → fails' (f e)) : Ends (x.mapError f) fails' holds := by
  cases x with
  | ok a => exact h
  | error e => exact hfails e h

theorem Ends.of_error {e : Problem} (h : Ends x fails holds) (he : x = .error e) : fails e := by
  rw [he] at h
  exact h

end

/-! ## The lexer -/

/-- What a lexer is asked for that there is not. -/
inductive Problem.IsBeyond : Problem → Prop where
  | character {code : Nat} (h : 0x10ffff < code) : IsBeyond (.escapeRange code)
  | version {ds : List Char} (h : Text.digitLimit < ds.length) : IsBeyond (.impossible ds)

theorem Problem.IsBeyond.isForeign {e : Problem} (h : e.IsBeyond) : e.isForeign = true := by
  cases h <;> rfl

/-- A problem that a text has as it is spelled: it is malformed, or goes too far. -/
def Problem.IsOfText (e : Problem) : Prop := e.isForeign = true → e.IsBeyond

/-- A token that breaks off for no other problem. -/
def Token.IsSound (token : Token) : Prop := ∀ e, token = .broken e → e.IsOfText

theorem Problem.isOfText_of_malformed {e : Problem} (h : e.isForeign = false) : e.IsOfText := by
  intro himpossible
  rw [h] at himpossible
  cases himpossible

theorem Token.isSound_of_ne {token : Token} (h : ∀ e, token ≠ .broken e) : token.IsSound :=
  fun e he => absurd he (h e)

/-! ### Readers -/

section

variable {α : Type} {holds : α → Prop}

theorem Ends.ok {fails : Problem → Prop} {a : α} (h : holds a) : Ends (.ok a) fails holds := h

theorem Ends.malformed {e : Problem} (h : e.isForeign = false) :
    Ends (.error e) Problem.IsOfText holds :=
  Problem.isOfText_of_malformed h

end

theorem readName_ends (cs : List Char) : Ends (readName cs) Problem.IsOfText fun _ => True := by
  unfold readName
  dsimp only
  split
  · exact .malformed rfl
  · split
    · exact .ok trivial
    · exact .malformed rfl

theorem readUri_ends (cs : List Char) : Ends (readUri cs) Problem.IsOfText fun _ => True := by
  unfold readUri
  dsimp only
  split
  · exact .malformed rfl
  · exact .ok trivial

theorem readHandle_ends (cs : List Char) : Ends (readHandle cs) Problem.IsOfText fun _ => True := by
  unfold readHandle
  split
  · split
    · exact .ok trivial
    · split
      · exact .ok trivial
      · exact .malformed rfl
  · exact .malformed rfl

theorem readTag_ends (cs : List Char) :
    Ends (readTag cs) Problem.IsOfText fun (read : Token × List Char) => read.1.IsSound := by
  have hend : ∀ handle? suffix (rest : List Char),
      Ends (if rest.head?.any (fun c => c != ' ' && !isBreak c) then .error .tag
        else .ok (Token.tag handle? suffix, rest)) Problem.IsOfText
        fun (read : Token × List Char) => read.1.IsSound := by
    intro handle? suffix rest
    split
    · exact .malformed rfl
    · exact .ok (Token.isSound_of_ne (by simp))
  unfold readTag
  split
  · refine (readUri_ends _).bind fun ⟨uri, rest⟩ _ => ?_
    dsimp only
    split
    · exact hend _ _ _
    · exact .malformed rfl
  · dsimp only
    split
    · exact hend _ _ _
    · split
      · refine (readHandle_ends _).bind fun ⟨handle, rest⟩ _ => ?_
        exact (readUri_ends _).bind fun ⟨uri, rest⟩ _ => hend _ _ _
      · exact (readUri_ends _).bind fun ⟨uri, rest⟩ _ => hend _ _ _

theorem readDigits_ends (cs : List Char) : Ends (readDigits cs) Problem.IsOfText fun _ => True := by
  unfold readDigits
  dsimp only
  split
  · exact .malformed rfl
  · split
    · next hlong => exact fun _ => .version hlong
    · exact .ok trivial

theorem afterDirective_ends (cs : List Char) :
    Ends (afterDirective cs) Problem.IsOfText fun _ => True := by
  unfold afterDirective
  split
  · exact .malformed rfl
  · exact .ok trivial

theorem readVersion_ends (cs : List Char) :
    Ends (readVersion cs) Problem.IsOfText fun _ => True := by
  unfold readVersion
  refine (readDigits_ends _).bind fun ⟨major, rest⟩ _ => ?_
  dsimp only
  split
  · refine (readDigits_ends _).bind fun ⟨_, rest⟩ _ => ?_
    exact (afterDirective_ends _).bind fun _ _ => .ok trivial
  · exact .malformed rfl

theorem readTagHandle_ends (cs : List Char) :
    Ends (readTagHandle cs) Problem.IsOfText fun _ => True := by
  unfold readTagHandle
  refine (readHandle_ends _).bind fun ⟨handle, rest⟩ _ => ?_
  dsimp only
  split
  · exact .malformed rfl
  · refine (readUri_ends _).bind fun ⟨uri, rest⟩ _ => ?_
    exact (afterDirective_ends _).bind fun _ _ => .ok trivial

theorem endDirective_ends (cs : List Char) :
    Ends (endDirective cs) Problem.IsOfText fun _ => True := by
  unfold endDirective
  dsimp only
  split
  · exact .ok trivial
  · split
    · exact .malformed rfl
    · exact .ok trivial

theorem readDirective_ends (cs : List Char) :
    Ends (readDirective cs) Problem.IsOfText fun _ => True := by
  unfold readDirective
  dsimp only
  split
  · exact .malformed rfl
  · refine (afterDirective_ends _).bind fun _ _ => ?_
    split
    · refine (readVersion_ends _).bind fun ⟨directive, rest⟩ _ => ?_
      exact (endDirective_ends _).bind fun _ _ => .ok trivial
    · split
      · refine (readTagHandle_ends _).bind fun ⟨directive, rest⟩ _ => ?_
        exact (endDirective_ends _).bind fun _ _ => .ok trivial
      · exact (endDirective_ends _).bind fun _ _ => .ok trivial

theorem readDepth_ends (cs : List Char) : Ends (readDepth cs) Problem.IsOfText fun _ => True := by
  unfold readDepth
  split
  · split
    · exact .malformed rfl
    · split
      · exact .ok trivial
      · exact .ok trivial
  · exact .ok trivial

theorem skipLine_ends (inComment : Bool) (cs : List Char) :
    Ends (skipLine inComment cs) Problem.IsOfText fun _ => True := by
  induction cs generalizing inComment with
  | nil => exact .ok trivial
  | cons c cs ih =>
    rw [skipLine]
    split
    · exact .ok trivial
    · split
      · exact ih true
      · split
        · exact ih false
        · exact .malformed rfl

theorem readBlock_ends (folded : Bool) (outer : Nat) (cs : List Char) :
    Ends (readBlock folded outer cs) Problem.IsOfText fun _ => True := by
  have hheader : Ends (readHeader cs) Problem.IsOfText fun _ => True := by
    unfold readHeader
    rcases readChomp cs with ⟨before?, cs⟩
    refine (readDepth_ends _).bind fun ⟨depth?, cs⟩ _ => ?_
    dsimp only
    rcases (if before?.isNone && depth?.isSome then readChomp cs else (none, cs)) with ⟨after?, cs⟩
    dsimp only
    split
    · exact .malformed rfl
    · exact (skipLine_ends _ _).bind fun _ _ => .ok trivial
  exact hheader.bind fun ⟨header, rest⟩ _ => .ok trivial

/-- An escape stands for a character or half of one, unless it goes too far. -/
theorem pushCode_ends (content : Content) (code : Nat) :
    Ends (content.pushCode code) Problem.IsOfText fun _ => True := by
  unfold Content.pushCode
  split
  · exact .ok trivial
  · split
    · exact .ok trivial
    · next hvalid _ hhalf =>
      refine fun _ => .character ?_
      have hrange := Half.ofCode?_eq_none_iff.mp hhalf
      unfold Nat.isValidChar at hvalid
      omega

theorem readQuoted_ends (quotes : Quotes) (state : QuotedState) (sofar : Content) (cs : List Char) :
    Ends (readQuoted quotes state sofar cs) Problem.IsOfText fun _ => True := by
  fun_induction readQuoted quotes state sofar cs
  case case11 hpush => exact (pushCode_ends _ _).of_error hpush
  all_goals subst_vars
  all_goals first | assumption | exact .ok trivial | exact .malformed rfl

/-! ### Steps -/

namespace Lexer

variable {l : Lexer} {token : Token}

/-- No token so far breaks off for anything else. -/
def IsSound (l : Lexer) : Prop := ∀ token ∈ l.reversed, token.IsSound

/-- A result that keeps the tokens sound. -/
abbrev Keeps (x : Except Problem Lexer) : Prop := Ends x Problem.IsOfText IsSound

theorem IsSound.emit (h : l.IsSound) (htoken : token.IsSound) : (l.emit token).IsSound := by
  intro other hother
  rcases List.mem_cons.mp hother with rfl | hother
  · exact htoken
  · exact h other hother

theorem closeBlocks_sound (column : Int) (indents : List Nat) {reversed : List Token}
    (h : ∀ token ∈ reversed, token.IsSound) :
    ∀ token ∈ (closeBlocks column indents reversed).2, token.IsSound := by
  induction indents generalizing reversed with
  | nil => exact h
  | cons i is ih =>
    rw [closeBlocks]
    split
    · refine ih ?_
      intro token htoken
      rcases List.mem_cons.mp htoken with rfl | htoken
      · exact Token.isSound_of_ne (by simp)
      · exact h token htoken
    · exact h

theorem IsSound.closeTo (h : l.IsSound) (column : Int) : (l.closeTo column).IsSound := by
  unfold Lexer.closeTo
  split
  · exact h
  · exact closeBlocks_sound column l.indents h

theorem IsSound.openBlock (h : l.IsSound) (htoken : token.IsSound) : (l.openBlock token).IsSound := by
  unfold Lexer.openBlock
  split
  · exact h.emit htoken
  · exact h

theorem IsSound.skip (h : l.IsSound) : l.skip.IsSound := by
  unfold Lexer.skip
  dsimp only
  split
  · exact h
  · exact h

theorem live?_ends (l : Lexer) (candidate? : Option Candidate) :
    Ends (l.live? candidate?) Problem.IsOfText fun _ => True := by
  unfold live?
  split
  · exact .ok trivial
  · split
    · exact .ok trivial
    · split
      · exact .malformed rfl
      · exact .ok trivial

theorem IsSound.forgetStale (h : l.IsSound) : Keeps l.forgetStale := by
  have houter : ∀ cs : List (Option Candidate),
      Ends (cs.mapM l.live?) Problem.IsOfText fun _ => True := by
    intro cs
    induction cs with
    | nil => exact .ok trivial
    | cons c cs ih =>
      rw [List.mapM_cons]
      exact (live?_ends l c).bind fun _ _ => ih.bind fun _ _ => .ok trivial
  exact (live?_ends l _).bind fun _ _ => (houter _).bind fun _ _ => .ok h

theorem IsSound.forget (h : l.IsSound) : Keeps l.forget := by
  unfold Lexer.forget
  split
  · exact .malformed rfl
  · exact .ok h

theorem IsSound.remember (h : l.IsSound) : Keeps l.remember := by
  unfold Lexer.remember
  split
  · exact h.forget.bind fun _ hl => .ok hl
  · exact .ok h

theorem IsSound.separator (h : l.IsSound) (htoken : token.IsSound) : Keeps (l.separator token) :=
  (h.closeTo _).forget.bind fun _ hl => .ok (hl.emit htoken)

theorem IsSound.directive (h : l.IsSound) (cs : List Char) : Keeps (l.directive cs) :=
  (h.closeTo _).forget.bind fun _ hl => (readDirective_ends cs).bind fun ⟨_, _⟩ _ =>
    .ok (hl.emit (Token.isSound_of_ne (by simp)))

theorem IsSound.openFlow (h : l.IsSound) (htoken : token.IsSound) : Keeps (l.openFlow token) :=
  h.remember.bind fun _ hl => .ok (hl.emit htoken)

theorem IsSound.closeFlow (h : l.IsSound) (htoken : token.IsSound) : Keeps (l.closeFlow token) := by
  refine h.forget.bind fun l' hl => ?_
  dsimp only
  split
  · exact .malformed rfl
  · exact .ok (hl.emit htoken)

theorem IsSound.comma (h : l.IsSound) : Keeps l.comma :=
  h.forget.bind fun _ hl => .ok (hl.emit (Token.isSound_of_ne (by simp)))

theorem IsSound.opened (h : l.IsSound) (htoken : token.IsSound) :
    (if l.inFlow then l else l.openBlock token).IsSound := by
  split
  · exact h
  · exact h.openBlock htoken

theorem IsSound.entry (h : l.IsSound) : Keeps l.entry := by
  have hopened := h.opened (Token.isSound_of_ne fun e => (nofun : Token.blockList ≠ .broken e))
  unfold Lexer.entry
  dsimp only
  by_cases hbad : (!l.inFlow && !l.keyAllowed) = true
  · rw [if_pos hbad]
    exact (Ends.malformed rfl : Ends (.error .entry) _ _)
  · rw [if_neg hbad]
    exact hopened.forget.bind fun _ hl => .ok (hl.emit (Token.isSound_of_ne (by simp)))

theorem IsSound.explicitKey (h : l.IsSound) : Keeps l.explicitKey := by
  have hopened := h.opened (Token.isSound_of_ne fun e => (nofun : Token.blockMap ≠ .broken e))
  unfold Lexer.explicitKey
  dsimp only
  by_cases hbad : (!l.inFlow && !l.keyAllowed) = true
  · rw [if_pos hbad]
    exact (Ends.malformed rfl : Ends (.error .key) _ _)
  · rw [if_neg hbad]
    exact hopened.forget.bind fun _ hl => .ok (hl.emit (Token.isSound_of_ne (by simp)))

theorem insertAt_sound {tokens reversed : List Token} (position : Nat)
    (htokens : ∀ token ∈ tokens, token.IsSound) (h : ∀ token ∈ reversed, token.IsSound) :
    ∀ token ∈ insertAt position tokens reversed, token.IsSound := by
  intro token htoken
  unfold insertAt at htoken
  simp only [List.mem_append] at htoken
  rcases htoken with (hlater | hmarks) | hearlier
  · exact h token (List.mem_of_mem_take hlater)
  · exact htokens token hmarks
  · exact h token (List.mem_of_mem_drop hearlier)

theorem IsSound.colon (h : l.IsSound) : Keeps l.colon := by
  unfold Lexer.colon
  split
  · next c _ =>
    have hmarks : ∀ token ∈ (if (!l.inFlow && decide (l.indent < c.column)) = true then
        [Token.key, .blockMap] else [.key]), token.IsSound := by
      intro token htoken
      refine Token.isSound_of_ne fun e he => ?_
      subst he
      split at htoken <;> simp at htoken
    have hinserted := insertAt_sound c.position hmarks h
    exact .ok (IsSound.emit hinserted (Token.isSound_of_ne (by simp)))
  · have hopened := h.opened (Token.isSound_of_ne fun e => (nofun : Token.blockMap ≠ .broken e))
    dsimp only
    by_cases hbad : (!l.inFlow && !l.keyAllowed) = true
    · rw [if_pos hbad]
      exact (Ends.malformed rfl : Ends (.error .key) _ _)
    · rw [if_neg hbad]
      exact .ok (hopened.emit (Token.isSound_of_ne (by simp)))

theorem IsSound.name (h : l.IsSound) {token : List Char → Token} (htoken : ∀ name, (token name).IsSound)
    (cs : List Char) : Keeps (l.name token cs) :=
  h.remember.bind fun _ hl => (readName_ends cs).bind fun ⟨_, _⟩ _ => .ok (hl.emit (htoken _))

theorem IsSound.tag (h : l.IsSound) (cs : List Char) : Keeps (l.tag cs) :=
  h.remember.bind fun _ hl => (readTag_ends cs).bind fun ⟨_, _⟩ htoken => .ok (hl.emit htoken)

theorem IsSound.quoted (h : l.IsSound) (quotes : Quotes) (cs : List Char) :
    Keeps (l.quoted quotes cs) :=
  h.remember.bind fun _ hl => (readQuoted_ends quotes .text {} cs).bind fun ⟨_, _⟩ _ =>
    .ok (hl.emit (Token.isSound_of_ne (by simp)))

theorem IsSound.block (h : l.IsSound) (folded : Bool) (cs : List Char) : Keeps (l.block folded cs) :=
  h.forget.bind fun _ hl => (readBlock_ends folded _ cs).bind fun ⟨_, _⟩ _ =>
    .ok (hl.emit (Token.isSound_of_ne (by simp)))

theorem IsSound.plain (h : l.IsSound) : Keeps l.plain :=
  h.remember.bind fun _ hl => .ok (hl.emit (Token.isSound_of_ne (by simp)))

theorem IsSound.take (h : l.IsSound) (c : Char) (cs : List Char) : Keeps (l.token c cs) := by
  have hseparator : (if c = '-' then Token.documentStart else .documentEnd).IsSound := by
    split
    · exact Token.isSound_of_ne (by simp)
    · exact Token.isSound_of_ne (by simp)
  have hplain {name : List Char → Token} (hname : ∀ chars e, name chars ≠ .broken e) :
      ∀ chars, (name chars).IsSound := fun chars => Token.isSound_of_ne (hname chars)
  unfold Lexer.token
  refine .ite (h.directive cs) <| .ite (h.separator hseparator) <|
    .ite (h.openFlow <| Token.isSound_of_ne (by simp)) <|
    .ite (h.openFlow <| Token.isSound_of_ne (by simp)) <|
    .ite (h.closeFlow <| Token.isSound_of_ne (by simp)) <|
    .ite (h.closeFlow <| Token.isSound_of_ne (by simp)) <|
    .ite h.comma <| .ite h.entry <| .ite h.explicitKey <| .ite h.colon <|
    .ite (h.name (hplain (by simp)) cs) <| .ite (h.name (hplain (by simp)) cs) <| .ite (h.tag cs) <|
    .ite (h.block false cs) <| .ite (h.block true cs) <| .ite (h.quoted .single cs) <|
    .ite (h.quoted .double cs) <| .ite h.plain (.malformed rfl)

theorem IsSound.step (h : l.IsSound) :
    Ends l.step Problem.IsOfText fun (stepped : Bool × Lexer) => stepped.2.IsSound := by
  refine h.skip.forgetStale.bind fun l' hl => ?_
  have hclosed := hl.closeTo l'.cursor.column
  dsimp only
  split
  · exact (hclosed.closeTo (-1)).forget.bind fun _ hend => .ok hend
  · exact (hclosed.take _ _).bind fun _ htaken => .ok htaken

theorem isSound_broken {e : Problem} (he : e.IsOfText) :
    ∀ token ∈ [Token.broken e], token.IsSound := by
  intro token htoken
  obtain rfl := List.mem_singleton.mp htoken
  rintro _ ⟨⟩
  exact he

theorem run_sound (fuel : Nat) (h : l.IsSound) : ∀ token ∈ run fuel l, token.IsSound := by
  induction fuel generalizing l with
  | zero =>
    intro token htoken
    rw [run, List.reverse_cons] at htoken
    rcases List.mem_append.mp htoken with hbefore | hlast
    · exact h token (List.mem_reverse.mp hbefore)
    · exact isSound_broken (Problem.isOfText_of_malformed rfl) token hlast
  | succ fuel ih =>
    rw [run]
    have hstep := h.step
    cases hresult : l.step with
    | error e =>
      rw [hresult] at hstep
      intro token htoken
      rcases List.mem_append.mp htoken with hsettled | hlast
      · exact h token (List.mem_reverse.mp (List.mem_of_mem_take hsettled))
      · exact isSound_broken hstep token hlast
    | ok stepped =>
      rw [hresult] at hstep
      obtain ⟨goesOn, l'⟩ := stepped
      cases goesOn with
      | false =>
        intro token htoken
        exact hstep token (List.mem_reverse.mp htoken)
      | true => exact ih hstep

end Lexer

/-- The tokens of a text break off for a fault of the text, or for what goes too far. -/
theorem tokens_sound (cs : List Char) : ∀ token ∈ tokens cs, token.IsSound :=
  Lexer.run_sound _ (l := { cursor := { rest := uniformBreaks cs } }) (by simp [Lexer.IsSound])

end Cadence.Yaml

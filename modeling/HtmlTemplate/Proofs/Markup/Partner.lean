import HtmlTemplate.Proofs.Markup.Nesting

/-!
# Spans and the stack of the check

The check keeps a stack of the elements that are open, and the end of a span is found by counting tags
of one name. In a balanced text they agree on the closing tag of every element
(`Markup.spanEnd_of_balanced`).
-/

namespace HtmlTemplate

/-! ## Offsets -/

namespace Text

theorem charsInBytes_byteLength (s t : Text) : charsInBytes (byteLength s) (s ++ t) = s.length := by
  induction s with
  | nil => cases t <;> rfl
  | cons c s ih =>
    obtain ⟨n, hn⟩ := Nat.exists_eq_add_of_lt c.utf8Size_pos
    have hlength : byteLength (c :: s) = (n + byteLength s) + 1 := by
      show c.utf8Size + byteLength s = _
      omega
    rw [hlength, List.cons_append, charsInBytes, List.length_cons,
      show n + byteLength s + 1 - c.utf8Size = byteLength s by omega, ih]

theorem drop_charsInBytes (s t : Text) : (s ++ t).drop (charsInBytes (byteLength s) (s ++ t)) = t := by
  rw [charsInBytes_byteLength, List.drop_left]

end Text

theorem Pattern.pieces_print_of_append {α : Type} (p : Pattern α) {t : Text} {ps qs : List (Piece α)}
    (h : p.pieces t = ps ++ qs) : p.pieces (qs.flatMap (Piece.print p.print)) = qs := by
  fun_induction pieces p t generalizing ps with
  | case1 t a rest hread ih =>
    cases ps with
    | nil =>
      rw [List.nil_append] at h
      rw [← h, ← p.pieces_of_read hread, p.print_pieces]
    | cons piece ps => exact ih (List.cons.inj h).2
  | case2 hread =>
    obtain ⟨-, rfl⟩ := List.append_eq_nil_iff.1 h.symm
    exact p.pieces_nil
  | case3 c t hread ih =>
    cases ps with
    | nil =>
      rw [List.nil_append] at h
      rw [← h, ← p.pieces_cons_of_read_none hread, p.print_pieces]
    | cons piece ps => exact ih (List.cons.inj h).2

namespace Markup

theorem ofText_text_of_append {t : Text} {m n : Markup} (h : ofText t = m ++ n) : ofText n.text = n :=
  Tag.pattern.pieces_print_of_append h

theorem locate_append (start : Nat) (m n : Markup) :
    locate start (m ++ n) = locate start m ++ locate (start + Text.byteLength m.text) n := by
  induction m generalizing start with
  | nil => rfl
  | cons piece m ih =>
    cases piece with
    | char c =>
      rw [List.cons_append, locate, locate, ih, text_char, Nat.add_assoc]
      rfl
    | lexeme tag =>
      rw [List.cons_append, locate, locate, ih, text_tag, Text.byteLength_append, Nat.add_assoc,
        List.cons_append]

@[simp] theorem map_tag_locate (start : Nat) (m : Markup) : (locate start m).map Token.tag = m.tags := by
  induction m generalizing start with
  | nil => rfl
  | cons piece m ih =>
    cases piece with
    | char c => exact ih _
    | lexeme tag => exact congrArg (tag :: ·) (ih _)

theorem exists_of_mem_locate {token : Token} {start : Nat} {m : Markup} (h : token ∈ locate start m) :
    ∃ f r : Markup, m = f ++ .lexeme token.tag :: r ∧ token.start = start + Text.byteLength f.text ∧
      token.stop = token.start + Text.byteLength token.tag.print := by
  induction m generalizing start with
  | nil => simp [locate] at h
  | cons piece m ih =>
    cases piece with
    | char c =>
      obtain ⟨f, r, rfl, hstart, hstop⟩ := ih h
      exact ⟨.char c :: f, r, rfl, by rw [hstart, text_char, Nat.add_assoc]; rfl, hstop⟩
    | lexeme tag =>
      rcases List.mem_cons.1 h with rfl | hmem
      · exact ⟨[], m, rfl, rfl, rfl⟩
      · obtain ⟨f, r, rfl, hstart, hstop⟩ := ih hmem
        refine ⟨.lexeme tag :: f, r, rfl, ?_, hstop⟩
        rw [hstart, text_tag, Text.byteLength_append, Nat.add_assoc]

theorem spanEnd_eq {t : Text} {f r : Markup} {tag : Tag} (h : ofText t = f ++ .lexeme tag :: r)
    {start stop : Nat} (hstart : start = Text.byteLength f.text)
    (hstop : stop = start + Text.byteLength tag.print) :
    Token.spanEnd ⟨tag, start, stop⟩ t =
      (cutSpan tag r).map fun (inside, _) => stop + Text.byteLength inside.text := by
  have ht : t = (f.text ++ tag.print) ++ r.text := by
    rw [← text_ofText t, h]
    simp
  have hlength : stop = Text.byteLength (f.text ++ tag.print) := by
    rw [hstop, hstart, Text.byteLength_append]
  have hrest : t.drop (t.charsInBytes stop) = r.text := by
    rw [hlength, ht, Text.drop_charsInBytes]
  have hscan : ofText t = (f ++ [.lexeme tag]) ++ r := by rw [h]; simp
  rw [Token.spanEnd, hrest, ofText_text_of_append hscan]

theorem tokensFrom_zero (t : Text) : tokensFrom t 0 = locate 0 (ofText t) := by
  have hzero : t.charsInBytes 0 = 0 := by cases t <;> rfl
  rw [tokensFrom, hzero, List.drop_zero]

theorem exists_of_mem_tokensFrom {t : Text} {token : Token} (h : token ∈ tokensFrom t 0) :
    ∃ f r : Markup, ofText t = f ++ .lexeme token.tag :: r ∧
      tokensFrom t 0 = locate 0 f ++ token :: locate token.stop r ∧
      token.spanEnd t = (cutSpan token.tag r).map fun (inside, _) => token.stop + Text.byteLength inside.text := by
  rw [tokensFrom_zero] at h ⊢
  obtain ⟨f, r, hm, hstart, hstop⟩ := exists_of_mem_locate h
  rw [Nat.zero_add] at hstart
  refine ⟨f, r, hm, ?_, spanEnd_eq hm hstart hstop⟩
  rw [hm, locate_append, Nat.zero_add, locate, ← hstart, ← hstop]

/-! ## The stack -/

/-- The open tokens after one more token, as the check keeps them: innermost first. -/
def Token.push (stack : List Token) (token : Token) : List Token :=
  if token.tag.closing then stack.tail else if token.tag.opensScope then token :: stack else stack

def openAfter (stack tokens : List Token) : List Token := tokens.foldl Token.push stack

def Token.key (token : Token) : Text := token.tag.name.lower

@[simp] theorem openAfter_cons (stack : List Token) (token : Token) (tokens : List Token) :
    openAfter stack (token :: tokens) = openAfter (Token.push stack token) tokens := rfl

@[simp] theorem openAfter_append (stack tokens tokens' : List Token) :
    openAfter stack (tokens ++ tokens') = openAfter (openAfter stack tokens) tokens' :=
  List.foldl_append

theorem checkTags_push {stack : List Token} {token : Token} {ts : List Tag}
    (h : checkTags (stack.map Token.key) (token.tag :: ts) = .ok ()) :
    checkTags ((Token.push stack token).map Token.key) ts = .ok () ∧
      (token.tag.closing = true → ∃ o stack', stack = o :: stack' ∧ o.key = token.key) := by
  rcases checkTags_cons_iff.1 h with ⟨hclosing, below, hstack, hbelow⟩ | ⟨hclosing, hafter⟩
  · obtain ⟨o, stack', rfl, hkey, rfl⟩ := List.map_eq_cons_iff.1 hstack
    rw [Token.push, if_pos hclosing]
    exact ⟨hbelow, fun _ => ⟨o, stack', rfl, hkey⟩⟩
  · refine ⟨?_, fun hc => by simp [hclosing] at hc⟩
    rw [Token.push, if_neg (by simp [hclosing])]
    split at hafter
    · next hopens => rwa [if_pos hopens]
    · next hopens => rwa [if_neg hopens]

theorem openAfter_of_checkTags {stack tokens : List Token}
    (h : checkTags (stack.map Token.key) (tokens.map Token.tag) = .ok ()) (below : List Token) :
    openAfter (stack ++ below) tokens = below ∧
      ∀ p, p <+: tokens → below <:+ openAfter (stack ++ below) p := by
  induction tokens generalizing stack with
  | nil =>
    cases stack with
    | nil =>
      refine ⟨rfl, fun p hp => ?_⟩
      rw [List.prefix_nil.1 hp]
      exact List.suffix_refl below
    | cons o stack => simp [checkTags] at h
  | cons token tokens ih =>
    obtain ⟨hpush, hclosing⟩ := checkTags_push h
    have hstep : Token.push (stack ++ below) token = Token.push stack token ++ below := by
      unfold Token.push
      split
      · next hc =>
        obtain ⟨o, stack', rfl, -⟩ := hclosing hc
        rfl
      · split <;> rfl
    obtain ⟨hdone, hheld⟩ := ih hpush
    rw [← hstep] at hdone hheld
    refine ⟨hdone, fun p hp => ?_⟩
    rcases List.prefix_cons_iff.1 hp with rfl | ⟨p, rfl, hprefix⟩
    · exact List.suffix_append stack below
    · exact hheld p hprefix

/-- The check pushes an entry for `opening` after the tokens `before`, and pops it at `closing`. -/
structure Partners (before : List Token) (opening : Token) (inside : List Token) (closing : Token) :
    Prop where
  pushed : openAfter [] (before ++ [opening]) = opening :: openAfter [] before
  held : ∀ p, p <+: inside → opening :: openAfter [] before <:+ openAfter [] (before ++ opening :: p)
  popped : openAfter [] (before ++ opening :: (inside ++ [closing])) = openAfter [] before

theorem partners_of_checkTags {opening closing : Token} (hopens : opening.tag.opensScope = true)
    (hcloses : closing.tag.closing = true) {inside : List Token}
    (hinside : checkTags [] (inside.map Token.tag) = .ok ()) (before : List Token) :
    Partners before opening inside closing := by
  have hpush : ∀ stack, Token.push stack opening = opening :: stack := fun stack => by
    rw [Token.push, if_neg (by simp [Forest.not_closing_of_opensScope hopens]), if_pos hopens]
  have hinside' : checkTags (List.map Token.key []) (inside.map Token.tag) = .ok () := hinside
  obtain ⟨hdone, hheld⟩ := openAfter_of_checkTags hinside' (opening :: openAfter [] before)
  rw [List.nil_append] at hdone hheld
  refine ⟨?_, fun p hp => ?_, ?_⟩
  · rw [openAfter_append, openAfter_cons, hpush]
    rfl
  · rw [openAfter_append, openAfter_cons, hpush]
    exact hheld p hp
  · rw [openAfter_append, openAfter_cons, hpush, openAfter_append, hdone, openAfter_cons, Token.push,
      if_pos hcloses]
    rfl

/-- In a balanced text, the span of a token that opens an element ends with the closing token at which
the check pops the entry of that token, and what stands between the two is balanced. Any other token is
its own span. -/
theorem spanEnd_of_balanced {t : Text} (h : Balanced t) {token : Token} (htoken : token ∈ tokensFrom t 0) :
    (token.tag.opensScope = true → ∃ before inside closing after,
        tokensFrom t 0 = before ++ token :: (inside ++ closing :: after) ∧
          Partners before token inside closing ∧ closing.tag.closing = true ∧ closing.key = token.key ∧
            checkTags [] (inside.map Token.tag) = .ok () ∧ token.spanEnd t = some closing.stop) ∧
      (token.tag.opensScope = false → token.spanEnd t = some token.stop) := by
  obtain ⟨f, r, hm, htokens, hspan⟩ := exists_of_mem_tokensFrom htoken
  refine ⟨fun hopens => ?_, fun hopens => ?_⟩
  · obtain ⟨F, hF, hFtags⟩ := Forest.checkTags_eq_ok_iff.1 (balanced_iff.1 h)
    obtain ⟨E, inside, after, rfl, hE, -⟩ := Forest.exists_element hF
      (show F.tags = f.tags ++ token.tag :: r.tags by rw [hFtags, hm]; simp)
      (Forest.not_closing_of_opensScope hopens)
    obtain ⟨i, c, rfl, hcloses, hname, hi⟩ := hE.exists_closing hopens
    have hinside : checkTags [] ((locate token.stop i).map Token.tag) = .ok () := by
      rwa [map_tag_locate]
    let closing : Token := ⟨c, token.stop + Text.byteLength i.text,
      token.stop + Text.byteLength i.text + Text.byteLength c.print⟩
    refine ⟨locate 0 f, locate token.stop i, closing, locate closing.stop after, ?_,
      partners_of_checkTags hopens hcloses hinside _, hcloses, hname, hinside, ?_⟩
    · rw [htokens, List.append_assoc, List.singleton_append, locate_append]
      rfl
    · rw [hspan, hE.cutSpan]
      simp [closing, Nat.add_assoc]
  · rw [hspan, cutSpan, if_neg (by simp [hopens])]
    simp

/-- An element around one of its own name and a void one, with names in both cases. -/
theorem spanEnd_of_balanced_nested :
    let t := "é<Div><div><br></DIV></diV>".toList
    let token : Token := ⟨⟨false, "Div".toList, []⟩, 2, 7⟩
    Balanced t ∧ token ∈ tokensFrom t 0 ∧
      (token.tag.opensScope = true → ∃ before inside closing after,
          tokensFrom t 0 = before ++ token :: (inside ++ closing :: after) ∧
            Partners before token inside closing ∧ closing.tag.closing = true ∧ closing.key = token.key ∧
              checkTags [] (inside.map Token.tag) = .ok () ∧ token.spanEnd t = some closing.stop) ∧
        (token.tag.opensScope = false → token.spanEnd t = some token.stop) := by
  intro t token
  have hbalanced : Balanced t := .inr (by decide +kernel)
  have htoken : token ∈ tokensFrom t 0 := by decide +kernel
  exact ⟨hbalanced, htoken, spanEnd_of_balanced hbalanced htoken⟩

end Markup
end HtmlTemplate

import HtmlTemplate.Markup.Tag
import HtmlTemplate.Proofs.Text.Pattern
import Mathlib

/-!
# Texts with holes

A list of pieces is a text with holes: each lexeme stands for a place that some function fills. As
long as the fillings hold no `<` or `>` and no hole directly follows what a tag begins with, tags are
found at the same places whatever the holes are filled with: reading a tag commutes with filling
(`HoledTag.read_fill`), and so the tags of two fillings differ only inside their bodies
(`Markup.forall₂_tags_fill`).
-/

namespace HtmlTemplate

namespace Tag

/-- Whether a text is an element name: an ASCII letter, then ASCII letters and digits. -/
def isName (name : Text) : Bool := name.head?.any Char.isAlpha && name.all Char.isAlphanum

theorem isAlphanum_of_isName {name : Text} (h : isName name = true) : ∀ c ∈ name, c.isAlphanum = true :=
  List.all_eq_true.1 (Bool.and_eq_true_iff.1 h).2

/-- Whether a text is what a tag begins with: `<` or `</`, alone or with an element name after it. -/
def isLead : Text → Bool
  | '<' :: '/' :: name => name.isEmpty || isName name
  | '<' :: name => name.isEmpty || isName name
  | _ => false

/-- What decides how a tag balances: its name, whether it closes, and whether it closes itself. -/
def shape (tag : Tag) : Text × Bool × Bool := (tag.name, tag.closing, tag.selfClosing)

theorem pattern_opensWith : pattern.OpensWith (· == '<') := by
  intro t tag rest h
  rw [eq_append_of_read h]
  rfl

theorem read_cons_of_ne {c : Char} (t : Text) (hc : c ≠ '<') : read (c :: t) = none :=
  pattern_opensWith.read_cons (by simpa using hc) t

end Tag

namespace Markup

@[simp] theorem ofText_nil : ofText [] = [] := Tag.pattern.pieces_nil

theorem ofText_of_read {t rest : Text} {tag : Tag} (h : Tag.read t = some (tag, rest)) :
    ofText t = .lexeme tag :: ofText rest :=
  Tag.pattern.pieces_of_read h

theorem ofText_cons_of_read_none {c : Char} {t : Text} (h : Tag.read (c :: t) = none) :
    ofText (c :: t) = .char c :: ofText t :=
  Tag.pattern.pieces_cons_of_read_none h

theorem ofText_append_of_not_mem {s : Text} (t : Text) (hs : '<' ∉ s) :
    ofText (s ++ t) = s.map .char ++ ofText t :=
  Tag.pattern_opensWith.pieces_append (fun c hc => by simpa using fun h : c = '<' => hs (h ▸ hc)) t

@[simp] theorem tags_nil : tags [] = [] := rfl

@[simp] theorem tags_append (m n : Markup) : tags (m ++ n) = m.tags ++ n.tags := by
  simp [tags]

@[simp] theorem tags_char (c : Char) (m : Markup) : tags (.char c :: m) = tags m := rfl

@[simp] theorem tags_tag (tag : Tag) (m : Markup) : tags (.lexeme tag :: m) = tag :: tags m := rfl

@[simp] theorem tags_map_char (t : Text) : tags (t.map .char) = [] := by
  induction t with
  | nil => rfl
  | cons c t ih => simpa using ih

end Markup

/-! ## Filling -/

def Text.fill {α : Type} (f : α → Text) (ps : List (Piece α)) : Text := ps.flatMap (Piece.print f)

namespace Text

variable {α : Type} (f : α → Text)

@[simp] theorem fill_nil : fill f [] = [] := rfl

@[simp] theorem fill_char (c : Char) (ps : List (Piece α)) :
    fill f (.char c :: ps) = c :: fill f ps := rfl

@[simp] theorem fill_hole (a : α) (ps : List (Piece α)) :
    fill f (.lexeme a :: ps) = f a ++ fill f ps := rfl

@[simp] theorem fill_append (ps qs : List (Piece α)) :
    fill f (ps ++ qs) = fill f ps ++ fill f qs := by
  simp [fill]

@[simp] theorem fill_map_char (t : Text) : fill f (t.map .char) = t := Piece.flatMap_print_map_char f t

theorem fill_map {β : Type} (g : β → α) (ps : List (Piece β)) :
    fill f (ps.map (Piece.map g)) = fill (fun b => f (g b)) ps := by
  rw [fill, fill, List.flatMap_map]
  exact List.flatMap_congr fun piece _ => by cases piece <;> rfl

theorem fill_congr {f g : α → Text} {ps : List (Piece α)}
    (h : ∀ a, .lexeme a ∈ ps → f a = g a) : fill f ps = fill g ps := by
  induction ps with
  | nil => rfl
  | cons piece ps ih =>
    have hrest := ih fun a ha => h a (List.mem_cons_of_mem _ ha)
    cases piece with
    | char c => rw [Text.fill_char, Text.fill_char, hrest]
    | lexeme a => rw [Text.fill_hole, Text.fill_hole, hrest, h a (by simp)]

theorem prefix_fill {f g : α → Text} {t : Text} {ps : List (Piece α)}
    (hf : ∀ a, .lexeme a ∈ ps → ∃ k, (f a).head? = some k ∧ k ∉ t) (h : t <+: fill f ps) :
    t <+: fill g ps := by
  induction t generalizing ps with
  | nil => exact List.nil_prefix
  | cons c t ih =>
    cases ps with
    | nil => simp at h
    | cons piece ps =>
      cases piece with
      | char d =>
        obtain ⟨rfl, hrest⟩ := List.cons_prefix_cons.1 h
        refine List.cons_prefix_cons.2 ⟨rfl, ih (fun a ha => ?_) hrest⟩
        obtain ⟨k, hk, hnot⟩ := hf a (List.mem_cons_of_mem _ ha)
        exact ⟨k, hk, fun hc => hnot (List.mem_cons_of_mem _ hc)⟩
      | lexeme a =>
        obtain ⟨k, hk, hnot⟩ := hf a (by simp)
        obtain ⟨s, hs⟩ := List.head?_eq_some_iff.1 hk
        rw [fill_hole, hs] at h
        obtain ⟨rfl, -⟩ := List.cons_prefix_cons.1 h
        exact absurd (by simp) hnot

/-- The holes of a text are filled without `<` and `>`. -/
def Plain (ps : List (Piece α)) : Prop := ∀ a, .lexeme a ∈ ps → '<' ∉ f a ∧ '>' ∉ f a

variable {f}

theorem Plain.of_append {pre ps : List (Piece α)} (h : Plain f (pre ++ ps)) : Plain f ps :=
  fun a ha => h a (List.mem_append_right _ ha)

theorem Plain.tail {piece : Piece α} {ps : List (Piece α)} (h : Plain f (piece :: ps)) :
    Plain f ps :=
  fun a ha => h a (List.mem_cons_of_mem _ ha)

/-- The characters of a class at the front of a text with holes, and what follows them. -/
def leading (p : Char → Bool) : List (Piece α) → Text × List (Piece α)
  | .char c :: ps => if p c then (c :: (leading p ps).1, (leading p ps).2) else ([], .char c :: ps)
  | ps => ([], ps)

theorem leading_append (p : Char → Bool) (ps : List (Piece α)) :
    ((leading p ps).1.map .char) ++ (leading p ps).2 = ps := by
  fun_induction leading p ps with
  | case1 c ps hc ih => simpa using ih
  | case2 => rfl
  | case3 => rfl

theorem all_leading (p : Char → Bool) (ps : List (Piece α)) : (leading p ps).1.all p = true := by
  fun_induction leading p ps with
  | case1 c ps hc ih => simpa [hc] using ih
  | case2 => rfl
  | case3 => rfl

theorem leading_rest (p : Char → Bool) (ps : List (Piece α)) (c : Char) (qs : List (Piece α))
    (h : (leading p ps).2 = .char c :: qs) : p c = false := by
  fun_induction leading p ps with
  | case1 c' ps hc ih => exact ih h
  | case2 c' ps hc =>
    obtain ⟨h₁, -⟩ := List.cons.inj h
    simpa [← Piece.char.inj h₁] using hc
  | case3 ps hps => exact absurd h (hps c qs)

end Text

/-! ## Tags with holes -/

/-- A tag whose body has holes. -/
structure HoledTag (α : Type) where
  closing : Bool
  name : Text
  body : List (Piece α)

namespace HoledTag

open Text (Plain)

variable {α : Type}

def fill (f : α → Text) (tag : HoledTag α) : Tag := ⟨tag.closing, tag.name, Text.fill f tag.body⟩

def cutAtEnd : List (Piece α) → Option (List (Piece α) × List (Piece α))
  | [] => none
  | .char c :: ps =>
    if c = '>' then some ([], ps) else (cutAtEnd ps).map fun (body, rest) => (.char c :: body, rest)
  | .lexeme a :: ps => (cutAtEnd ps).map fun (body, rest) => (.lexeme a :: body, rest)

/-- Reads the rest of a tag with holes from its name on. -/
def readFromName (closing : Bool) (ps : List (Piece α)) : Option (HoledTag α × List (Piece α)) :=
  let name := (Text.leading Char.isAlphanum ps).1
  let afterName := (Text.leading Char.isAlphanum ps).2
  if name.head?.any Char.isAlpha && (Text.leading Text.isWord afterName).1.isEmpty then
    (cutAtEnd afterName).map fun (body, rest) => (⟨closing, name, body⟩, rest)
  else none

def read : List (Piece α) → Option (HoledTag α × List (Piece α))
  | .char '/' :: ps => readFromName true ps
  | ps => readFromName false ps

/-! ## Reading commutes with filling -/

variable {f : α → Text}

theorem takeWhile_fill_of_cutAtEnd {ps body rest : List (Piece α)} (hf : Plain f ps)
    (h : cutAtEnd ps = some (body, rest)) :
    (Text.fill f ps).takeWhile (· != '>') = Text.fill f body ∧
      (Text.fill f ps).dropWhile (· != '>') = '>' :: Text.fill f rest := by
  induction ps generalizing body with
  | nil => simp [cutAtEnd] at h
  | cons piece ps ih =>
    cases piece with
    | char c =>
      simp only [cutAtEnd] at h
      split at h
      · next hc =>
        obtain ⟨rfl, rfl⟩ := Prod.mk.inj (Option.some.inj h)
        simp [hc]
      · next hc =>
        obtain ⟨⟨b, r⟩, hb, he⟩ := Option.map_eq_some_iff.1 h
        obtain ⟨rfl, rfl⟩ := Prod.mk.inj he
        simp [hc, ih hf.tail hb]
    | lexeme a =>
      simp only [cutAtEnd] at h
      obtain ⟨⟨b, r⟩, hb, he⟩ := Option.map_eq_some_iff.1 h
      obtain ⟨rfl, rfl⟩ := Prod.mk.inj he
      have ha : ∀ c ∈ f a, (c != '>') = true := fun c hc => by
        simpa using fun h : c = '>' => (hf a (by simp)).2 (h ▸ hc)
      simp only [Text.fill_hole]
      rw [List.takeWhile_append_of_pos ha, List.dropWhile_append_of_pos ha, (ih hf.tail hb).1,
        (ih hf.tail hb).2]
      exact ⟨rfl, rfl⟩

theorem dropWhile_fill_of_cutAtEnd {ps : List (Piece α)} (hf : Plain f ps)
    (h : cutAtEnd ps = none) : (Text.fill f ps).dropWhile (· != '>') = [] := by
  induction ps with
  | nil => rfl
  | cons piece ps ih =>
    cases piece with
    | char c =>
      simp only [cutAtEnd] at h
      split at h
      · simp at h
      · next hc => simpa [hc] using ih hf.tail (by simpa using h)
    | lexeme a =>
      have ha : ∀ c ∈ f a, (c != '>') = true := fun c hc => by
        simpa using fun h : c = '>' => (hf a (by simp)).2 (h ▸ hc)
      rw [Text.fill_hole, List.dropWhile_append_of_pos ha]
      exact ih hf.tail (by simpa [cutAtEnd] using h)

theorem eq_append_of_cutAtEnd {ps body rest : List (Piece α)}
    (h : cutAtEnd ps = some (body, rest)) : ps = body ++ .char '>' :: rest := by
  induction ps generalizing body with
  | nil => simp [cutAtEnd] at h
  | cons piece ps ih =>
    cases piece with
    | char c =>
      simp only [cutAtEnd] at h
      split at h
      · next hc =>
        obtain ⟨rfl, rfl⟩ := Prod.mk.inj (Option.some.inj h)
        simp [hc]
      · obtain ⟨⟨b, r⟩, hb, he⟩ := Option.map_eq_some_iff.1 h
        obtain ⟨rfl, rfl⟩ := Prod.mk.inj he
        simp [ih hb]
    | lexeme a =>
      simp only [cutAtEnd] at h
      obtain ⟨⟨b, r⟩, hb, he⟩ := Option.map_eq_some_iff.1 h
      obtain ⟨rfl, rfl⟩ := Prod.mk.inj he
      simp [ih hb]

theorem takeWhile_fill (p : Char → Bool) {ps : List (Piece α)}
    (h : ∀ a qs, (Text.leading p ps).2 ≠ .lexeme a :: qs) :
    (Text.fill f ps).takeWhile p = (Text.leading p ps).1 ∧
      (Text.fill f ps).dropWhile p = Text.fill f (Text.leading p ps).2 := by
  have hall : ∀ c ∈ (Text.leading p ps).1, p c = true := by
    simpa using Text.all_leading p ps
  have hrest : (Text.fill f (Text.leading p ps).2).takeWhile p = [] ∧
      (Text.fill f (Text.leading p ps).2).dropWhile p = Text.fill f (Text.leading p ps).2 := by
    cases hr : (Text.leading p ps).2 with
    | nil => exact ⟨rfl, rfl⟩
    | cons piece qs =>
      cases piece with
      | char c => simp [Text.leading_rest p ps c qs hr]
      | lexeme a => exact absurd hr (h a qs)
  have he : Text.fill f ps = (Text.leading p ps).1 ++ Text.fill f (Text.leading p ps).2 := by
    conv => lhs; rw [← Text.leading_append p ps]
    simp
  rw [he, List.takeWhile_append_of_pos hall, List.dropWhile_append_of_pos hall, hrest.1, hrest.2]
  simp

theorem head?_takeWhile_append {p : Char → Bool} {s : Text} (t : Text) (hs : s ≠ [])
    (hp : s.all p = true) : ((s ++ t).takeWhile p).head? = s.head? := by
  obtain ⟨c, s, rfl⟩ := List.exists_cons_of_ne_nil hs
  simp_all

/-- Reading from the name on commutes with filling, unless a hole stands right after what could be a
name. -/
theorem readFromName_fill (closing : Bool) {ps : List (Piece α)} (hf : Plain f ps)
    (h : ∀ a qs, (Text.leading Char.isAlphanum ps).2 = .lexeme a :: qs →
      (Text.leading Char.isAlphanum ps).1.head?.any (!Char.isAlpha ·) = true) :
    Tag.readFromName closing (Text.fill f ps) =
      (readFromName closing ps).map fun (tag, rest) => (tag.fill f, Text.fill f rest) := by
  have hf' : Plain f (Text.leading Char.isAlphanum ps).2 := by
    rw [← Text.leading_append Char.isAlphanum ps] at hf
    exact hf.of_append
  by_cases hole : ∃ a qs, (Text.leading Char.isAlphanum ps).2 = .lexeme a :: qs
  · obtain ⟨a, qs, hq⟩ := hole
    have hname := h a qs hq
    have hne : (Text.leading Char.isAlphanum ps).1 ≠ [] := by
      intro he
      simp [he] at hname
    have halpha : (Text.leading Char.isAlphanum ps).1.head?.any Char.isAlpha = false := by
      cases hn : (Text.leading Char.isAlphanum ps).1.head? <;> simp_all
    have he : Text.fill f ps =
        (Text.leading Char.isAlphanum ps).1 ++ Text.fill f (Text.leading Char.isAlphanum ps).2 := by
      conv => lhs; rw [← Text.leading_append Char.isAlphanum ps]
      simp
    have hhead := head?_takeWhile_append
      (Text.fill f (Text.leading Char.isAlphanum ps).2) hne (Text.all_leading _ ps)
    rw [← he] at hhead
    simp [Tag.readFromName, readFromName, hhead, halpha]
  · obtain ⟨htake, hdrop⟩ := takeWhile_fill (f := f) Char.isAlphanum
      (fun a qs hq => hole ⟨a, qs, hq⟩)
    have hword : (!(Text.fill f (Text.leading Char.isAlphanum ps).2).head?.any Text.isWord) =
        (Text.leading Text.isWord (Text.leading Char.isAlphanum ps).2).1.isEmpty := by
      cases hq : (Text.leading Char.isAlphanum ps).2 with
      | nil => rfl
      | cons piece qs =>
        cases piece with
        | char c => by_cases hc : Text.isWord c = true <;> simp [Text.leading, hc]
        | lexeme a => exact absurd ⟨a, qs, hq⟩ hole
    simp only [Tag.readFromName, readFromName, htake, hdrop, hword]
    split
    · cases hcut : cutAtEnd (Text.leading Char.isAlphanum ps).2 with
      | none => simp [dropWhile_fill_of_cutAtEnd hf' hcut]
      | some found =>
        obtain ⟨body, rest⟩ := found
        obtain ⟨htake', hdrop'⟩ := takeWhile_fill_of_cutAtEnd hf' hcut
        simp [htake', hdrop', fill]
    · rfl

/-! ## Where holes may stand -/

/-- No hole directly follows what a tag begins with. -/
def HolesApart (ps : List (Piece α)) : Prop :=
  ∀ (pre : List (Piece α)) (lead : Text) (a : α) (post : List (Piece α)),
    ps = pre ++ lead.map .char ++ .lexeme a :: post → Tag.isLead lead = false

theorem HolesApart.of_append {pre ps : List (Piece α)} (h : HolesApart (pre ++ ps)) :
    HolesApart ps := by
  intro front lead a post he
  exact h (pre ++ front) lead a post (by simp [he])

theorem HolesApart.tail {piece : Piece α} {ps : List (Piece α)} (h : HolesApart (piece :: ps)) :
    HolesApart ps :=
  HolesApart.of_append (show HolesApart ([piece] ++ ps) from h)

theorem isLead_lead {closing : Bool} {name : Text} (h : name.all Char.isAlphanum = true) :
    Tag.isLead ('<' :: ((if closing then ['/'] else []) ++ name)) =
      (name.isEmpty || Tag.isName name) := by
  cases closing with
  | true => rfl
  | false =>
    cases name with
    | nil => rfl
    | cons c name =>
      have hc : c ≠ '/' := by
        rintro rfl
        simp at h
      simp only [Bool.false_eq_true, if_false, List.nil_append]
      unfold Tag.isLead
      split <;> simp_all

/-- A hole behind `<`, perhaps a slash, and a run of name characters: the run is no name. -/
theorem HolesApart.not_alpha (closing : Bool) {ps : List (Piece α)}
    (h : HolesApart (.char '<' :: ((if closing then ['/'] else []).map .char ++ ps)))
    (a : α) (qs : List (Piece α)) (hq : (Text.leading Char.isAlphanum ps).2 = .lexeme a :: qs) :
    (Text.leading Char.isAlphanum ps).1.head?.any (!Char.isAlpha ·) = true := by
  have he := Text.leading_append Char.isAlphanum ps
  rw [hq] at he
  have hlead := h [] ('<' :: ((if closing then ['/'] else []) ++ (Text.leading Char.isAlphanum ps).1))
    a qs (by conv => lhs; rw [← he]
             simp)
  have hall := Text.all_leading Char.isAlphanum ps
  rw [isLead_lead hall] at hlead
  cases hn : (Text.leading Char.isAlphanum ps).1 with
  | nil => simp [hn] at hlead
  | cons c name =>
    rw [hn] at hlead hall
    simpa [Tag.isName, hall] using hlead

/-- Reading a tag commutes with filling. -/
theorem read_fill {ps : List (Piece α)} (hf : Plain f ps) (h : HolesApart (.char '<' :: ps)) :
    Tag.read ('<' :: Text.fill f ps) =
      (read ps).map fun (tag, rest) => (tag.fill f, Text.fill f rest) := by
  cases ps with
  | nil => rfl
  | cons piece ps =>
    cases piece with
    | lexeme a => exact absurd (h [] ['<'] a ps rfl) (by decide)
    | char c =>
      by_cases hc : c = '/'
      · subst hc
        exact readFromName_fill true hf.tail (HolesApart.not_alpha true h)
      · have hread : Tag.read ('<' :: Text.fill f (.char c :: ps)) =
            Tag.readFromName false (Text.fill f (.char c :: ps)) := by
          simp only [Text.fill_char, Tag.read]
          split <;> simp_all
        have hread' : read (.char c :: ps) = readFromName false (.char c :: ps) := by
          unfold read
          split <;> simp_all
        rw [hread, hread']
        exact readFromName_fill false hf (HolesApart.not_alpha false h)

theorem eq_append_of_read {ps rest : List (Piece α)} {tag : HoledTag α}
    (h : read ps = some (tag, rest)) : ∃ pre, ps = pre ++ tag.body ++ .char '>' :: rest := by
  have key : ∀ closing (qs : List (Piece α)), readFromName closing qs = some (tag, rest) →
      ∃ pre, qs = pre ++ tag.body ++ .char '>' :: rest := by
    intro closing qs hq
    simp only [readFromName] at hq
    split at hq
    · obtain ⟨⟨body, r⟩, hb, he⟩ := Option.map_eq_some_iff.1 hq
      obtain ⟨rfl, rfl⟩ := Prod.mk.inj he
      refine ⟨(Text.leading Char.isAlphanum qs).1.map .char, ?_⟩
      conv => lhs; rw [← Text.leading_append Char.isAlphanum qs, eq_append_of_cutAtEnd hb]
      simp
    · simp at hq
  unfold read at h
  split at h
  · obtain ⟨pre, rfl⟩ := key _ _ h
    exact ⟨.char '/' :: pre, rfl⟩
  · exact key _ _ h

end HoledTag

namespace Markup

open HoledTag (HolesApart)
open Text (Plain)

variable {α : Type} {f g : α → Text}

/-- Two tags are a tag with holes, filled one way and the other. Its body stands in the text, before a `>`. -/
def FilledTogether (f g : α → Text) (ps : List (Piece α)) (s t : Tag) : Prop :=
  ∃ tag : HoledTag α, s = tag.fill f ∧ t = tag.fill g ∧ tag.body ++ [.char '>'] <:+: ps

theorem FilledTogether.append {ps qs : List (Piece α)} {s t : Tag} (pre : List (Piece α))
    (h : FilledTogether f g qs s t) (hps : ps = pre ++ qs) : FilledTogether f g ps s t := by
  obtain ⟨tag, hs, ht, hin⟩ := h
  exact ⟨tag, hs, ht, hin.trans ⟨pre, [], by simp [hps]⟩⟩

/-- The tags of two fillings of one text correspond. -/
theorem forall₂_tags_fill {ps : List (Piece α)} (hf : Plain f ps) (hg : Plain g ps) (h : HolesApart ps) :
    List.Forall₂ (FilledTogether f g ps) (ofText (Text.fill f ps)).tags (ofText (Text.fill g ps)).tags := by
  induction hn : ps.length using Nat.strong_induction_on generalizing ps with
  | _ n ih =>
    cases ps with
    | nil => simp
    | cons piece ps =>
      have hlen : ps.length < n := by simp [← hn]
      have hrest : List.Forall₂ (FilledTogether f g (piece :: ps)) (ofText (Text.fill f ps)).tags
          (ofText (Text.fill g ps)).tags :=
        (ih _ hlen hf.tail hg.tail h.tail rfl).imp fun _ _ hst => hst.append [piece] rfl
      cases piece with
      | lexeme a =>
        have ha : '<' ∉ f a := (hf a (by simp)).1
        have ha' : '<' ∉ g a := (hg a (by simp)).1
        simpa [ofText_append_of_not_mem _ ha, ofText_append_of_not_mem _ ha'] using hrest
      | char c =>
        by_cases hc : c = '<'
        · subst hc
          have hreadf := HoledTag.read_fill hf.tail h
          have hreadg := HoledTag.read_fill hg.tail h
          cases hr : HoledTag.read ps with
          | none =>
            rw [hr] at hreadf hreadg
            simpa [ofText_cons_of_read_none hreadf, ofText_cons_of_read_none hreadg] using hrest
          | some found =>
            -- both fillings have the tag here, and go on behind it
            obtain ⟨tag, rest⟩ := found
            obtain ⟨pre, he⟩ := HoledTag.eq_append_of_read hr
            have hsplit : ps = (pre ++ tag.body ++ [.char '>']) ++ rest := by simp [he]
            have hlen' : rest.length < n := by
              rw [hsplit, List.length_append] at hlen
              omega
            have hbehind := ih _ hlen' (Plain.of_append (hsplit ▸ hf.tail)) (Plain.of_append (hsplit ▸ hg.tail))
              (HolesApart.of_append (hsplit ▸ h.tail)) rfl
            rw [hr] at hreadf hreadg
            rw [Text.fill_char, Text.fill_char, ofText_of_read hreadf, ofText_of_read hreadg]
            refine .cons ⟨tag, rfl, rfl, ⟨.char '<' :: pre, rest, by simp [he]⟩⟩ (hbehind.imp fun _ _ hst => ?_)
            exact hst.append (.char '<' :: (pre ++ tag.body ++ [.char '>'])) (by rw [hsplit, List.cons_append])
        · simpa [ofText_cons_of_read_none (Tag.read_cons_of_ne _ hc)] using hrest

theorem shape_fill {tag : HoledTag α} (h : ∀ a, tag.body.getLast? ≠ some (.lexeme a)) :
    (tag.fill f).shape = (tag.fill g).shape := by
  have hlast : (Text.fill f tag.body).getLast? = (Text.fill g tag.body).getLast? := by
    rcases List.eq_nil_or_concat tag.body with hb | ⟨body, piece, hb⟩
    · simp [hb]
    · cases piece with
      | char c => simp [hb]
      | lexeme a => exact absurd (by simp [hb]) (h a)
  simp [Tag.shape, HoledTag.fill, Tag.selfClosing, hlast]

theorem shapes_fill {ps : List (Piece α)} (hf : Plain f ps) (hg : Plain g ps) (h : HolesApart ps)
    (hend : ∀ a, ¬ [.lexeme a, .char '>'] <:+: ps) :
    (ofText (Text.fill f ps)).tags.map Tag.shape = (ofText (Text.fill g ps)).tags.map Tag.shape := by
  have key := forall₂_tags_fill hf hg h
  rw [← List.forall₂_eq_eq_eq, List.forall₂_map_left_iff, List.forall₂_map_right_iff]
  refine key.imp ?_
  rintro s t ⟨tag, rfl, rfl, hin⟩
  refine shape_fill fun a ha => hend a (List.IsInfix.trans ?_ hin)
  obtain ⟨body, hb⟩ := List.getLast?_eq_some_iff.1 ha
  exact ⟨body, [], by simp [hb]⟩

end Markup
end HtmlTemplate

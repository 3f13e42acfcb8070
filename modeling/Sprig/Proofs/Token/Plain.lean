import Sprig.Proofs.Numeric.ReadBack
import Sprig.Proofs.Text.Line
import Sprig.Token.Scan

/-!
# Tokens that are told on one line

A message tells a token by the label of its kind and its literal, and where a token names something
it tells the name itself. In a token of a text only a string can hold more than one line, and what a
string holds is told between quotes.
-/

namespace Sprig

namespace Numeric

theorem isPrintable_of_isPlainDigit {c : Char} (h : isPlainDigit c = true) :
    Text.isPrintable c = true := by
  rw [plainDigit_iff] at h
  exact Text.isPrintable_of_ascii (by omega)

@[simp] theorem isLine_exactText (x : Float) : Text.IsLine (exactText x) := by
  intro c hc
  rcases mem_exactText hc with h | h
  · exact isPrintable_of_isPlainDigit h
  · have hnames : ∀ c ∈ ['.', 'e', '-', '+', 'i', 'n', 'f', 'a'],
        0x20 ≤ c.toNat ∧ c.toNat < 0x7F := by simp
    exact Text.isPrintable_of_ascii (hnames c h)

@[simp] theorem isLine_integerText (k : Int) : Text.IsLine (integerText k) := by
  have hdigits : ∀ c ∈ digitsText k.natAbs, Text.isPrintable c = true :=
    fun c hc => isPrintable_of_isPlainDigit (isPlainDigit_of_mem_toDigits hc)
  rw [integerText, Text.isLine_append, Text.isLine_ofList]
  constructor
  · split <;> decide
  · exact hdigits

@[simp] theorem isLine_displayText (x : Float) : Text.IsLine (displayText x) := by
  unfold displayText
  dsimp only
  split
  · decide
  split
  · split <;> decide
  split
  · split <;> simp
  · simp

end Numeric

namespace Token

@[simp] theorem Literal.isLine_shown (l : Literal) : Text.IsLine l.shown := by
  cases l with
  | absent => decide
  | number x => exact Numeric.isLine_exactText x
  | text s => exact Text.isLine_quoted s

/-- What messages tell of a token stands on one line. -/
structure IsPlain (t : Token) : Prop where
  /-- The label of the kind stands on one line. -/
  label : Text.IsLine t.kind.label
  /-- A name, word or sign stands on one line. -/
  word : ∀ {s}, t.kind ≠ .string → t.literal = .text s → Text.IsLine s

theorem IsPlain.isLine_shown {t : Token} (h : t.IsPlain) : Text.IsLine t.shown := by
  unfold shown
  split
  · decide
  · simp [h.label]
    decide

section Scanning

variable {c : Char} {cs : List Char} {lexeme : Lexeme}

theorem isPrintable_of_isNamePart (h : isNamePart c = true) : Text.isPrintable c = true := by
  have hcode : c = '_' ↔ c.toNat = 0x5F := Char.toNat_inj.symm
  have hbounds : ((0x61 ≤ c.toNat ∧ c.toNat ≤ 0x7A) ∨ (0x41 ≤ c.toNat ∧ c.toNat ≤ 0x5A) ∨
      c.toNat = 0x5F) ∨ 0x30 ≤ c.toNat ∧ c.toNat ≤ 0x39 := by
    simp only [isNamePart, isNameStart, decide_eq_true_eq, Char.le_def, UInt32.le_iff_toNat_le,
      hcode] at h
    exact h
  exact Text.isPrintable_of_ascii (by omega)

theorem isLine_label_wordKind (word : String) : Text.IsLine (wordKind word).label := by
  unfold wordKind
  split
  · decide
  · split <;> decide

/-- The signs by themselves and the labels of their kinds stand on one line. -/
theorem isLine_label_singles : ∀ entry ∈ singles, Text.IsLine entry.2.label := by decide

theorem ascii_singles : ∀ entry ∈ singles, 0x20 ≤ entry.1.toNat ∧ entry.1.toNat < 0x7F := by
  simp [singles]

theorem isPlain_symbol (h : symbol? c cs = some lexeme) (p : Text.Position) :
    (lexeme.token p).IsPlain := by
  unfold symbol? at h
  split at h
  · next hpair =>
    obtain rfl := Option.some.inj h
    have hsigns : ∀ c ∈ ['=', '!', '<', '>'], ∀ d ∈ [c, '='],
        0x20 ≤ d.toNat ∧ d.toNat < 0x7F := by simp
    refine ⟨(by decide : Text.IsLine Kind.comparison.label), fun _ hliteral => ?_⟩
    obtain rfl := Literal.text.inj hliteral
    exact Text.isLine_ofList.mpr fun d hd => Text.isPrintable_of_ascii (hsigns c hpair.2 d hd)
  · obtain ⟨kind, hkind, rfl⟩ := Option.map_eq_some_iff.mp h
    obtain ⟨before, after, hsingles, -⟩ := List.lookup_eq_some_iff.mp hkind
    have hmem : (c, kind) ∈ singles := by simp [hsingles]
    refine ⟨isLine_label_singles _ hmem, fun _ hliteral => ?_⟩
    obtain rfl := Literal.text.inj hliteral
    exact Text.isLine_ofList.mpr (by simpa using Text.isPrintable_of_ascii (ascii_singles _ hmem))

theorem isPlain_name (letters : List Char) (h : ∀ c ∈ letters, isNamePart c = true)
    (p : Text.Position) : (Lexeme.token p (.name letters)).IsPlain := by
  refine ⟨isLine_label_wordKind _, fun _ hliteral => ?_⟩
  obtain rfl := Literal.text.inj hliteral
  exact Text.isLine_ofList.mpr fun c hc => isPrintable_of_isNamePart (h c hc)

/-- Every lexeme at the front of a text is told on one line. -/
theorem isPlain_of_pieceAt (h : pieceAt c cs = .lexeme lexeme) (p : Text.Position) :
    (lexeme.token p).IsPlain := by
  unfold pieceAt at h
  split at h
  · dsimp only at h
    split at h
    · obtain rfl := Piece.lexeme.inj h
      exact ⟨(by decide : Text.IsLine Kind.string.label), fun hkind => absurd rfl hkind⟩
    · cases h
  split at h
  · next hstart =>
    obtain rfl := Piece.lexeme.inj h
    refine isPlain_name _ (fun d hd => ?_) p
    rcases List.mem_cons.mp hd with rfl | hd
    · simp [isNamePart, hstart]
    · exact List.mem_takeWhile_imp hd
  split at h
  · next hsymbol =>
    obtain rfl := Piece.lexeme.inj h
    exact isPlain_symbol hsymbol p
  split at h
  · obtain rfl := Piece.lexeme.inj h
    exact ⟨(by decide : Text.IsLine Kind.number.label), fun _ hliteral => by cases hliteral⟩
  · cases h

/-- What holds of the closing token and of every lexeme holds of the tokens of a text. -/
theorem forall_of_scanFrom {P : Token → Prop} (hclosing : ∀ p, P ⟨.finish, .absent, p⟩)
    (hpiece : ∀ {c cs lexeme}, pieceAt c cs = .lexeme lexeme → ∀ p, P (lexeme.token p))
    (p : Text.Position) (cs : List Char) {tokens : List Token} (h : scanFrom p cs = .ok tokens) :
    ∀ t ∈ tokens, P t := by
  induction p, cs using scanFrom.induct generalizing tokens with
  | case1 p =>
      rw [scanFrom] at h
      obtain rfl := Except.ok.inj h
      simpa using hclosing p
  | case2 p c cs hunclosed =>
      rw [scanFrom, hunclosed] at h
      cases h
  | case3 p c cs hskipped ih =>
      rw [scanFrom, hskipped] at h
      exact ih h
  | case4 p c cs lexeme hfirst fault hrest ih =>
      rw [scanFrom, hfirst] at h
      simp only [hrest] at h
      cases h
  | case5 p c cs lexeme hfirst rest hrest ih =>
      rw [scanFrom, hfirst] at h
      simp only [hrest] at h
      obtain rfl := Except.ok.inj h
      intro t ht
      rcases List.mem_cons.mp ht with rfl | ht
      · exact hpiece hfirst p
      · exact ih hrest t ht

/-- The tokens of a text are told on one line. -/
theorem isPlain_of_scan {source : String} {tokens : List Token} (h : scan source = .ok tokens) :
    ∀ t ∈ tokens, t.IsPlain := by
  refine forall_of_scanFrom (fun p => ?_) (fun hfirst p => isPlain_of_pieceAt hfirst p) .start
    source.toList h
  exact ⟨(by decide : Text.IsLine Kind.finish.label), fun _ hliteral => by cases hliteral⟩

end Scanning

end Token

end Sprig

import Sprig.Parse.Program
import Sprig.Proofs.Parse.Invariant
import Sprig.Proofs.Token.Plain

/-!
# What is said about texts that are no programs

Whatever a text holds, what is wrong with it is told on one line. A parser refuses at a token of the
text or at the closing token, and tells it together with what it expected in its place.
-/

namespace Sprig

/-- Why a parser refuses is told on one line. -/
def Refusal.IsPlain : Refusal → Prop
  | .expected what => Text.IsLine what.text
  | .nestedTooDeeply => True

namespace Parse

open Token (IsPlain)

/-- From tokens that are told on one line, every parser refuses on one line. -/
theorem invariant_plain :
    Invariant (fun c => ∀ t ∈ c.tokens, t.IsPlain) (fun _ => True) Refusal.IsPlain where
  advance _ hc _ ht := hc _ (Cursor.mem_tokens_of_advance ht)
  scalar _ := trivial
  list _ := trivial
  number _ _ _ := trivial
  node _ _ _ := trivial
  told _ h := h
  tooDeep := trivial
  member c hc hnames := by
    have hplain := hc c.current List.mem_cons_self
    have hkind : c.current.kind ≠ .string := by
      intro hkind
      rcases hnames with h | h <;> rw [hkind] at h <;> cases h
    have hword : Text.IsLine (literalWords c.current.literal) := by
      cases hliteral : c.current.literal with
      | text s => exact hplain.word hkind hliteral
      | _ => exact Token.Literal.isLine_shown _
    simp only [Refusal.IsPlain, behindMember, Expectation.text, Text.isLine_append, hword]
    decide

/-- A fault of the grammar is told on one line. -/
theorem isLine_message_of_ofTokens {tokens : List Token} {fault : SyntaxFault}
    (htokens : ∀ t ∈ tokens, t.IsPlain) (h : ofTokens tokens = .error fault) :
    Text.IsLine fault.message := by
  have hstart : ∀ t ∈ (Cursor.ofTokens tokens).tokens, t.IsPlain := by
    intro t ht
    rcases Cursor.mem_tokens_ofTokens ht with ht | rfl
    · exact htokens t ht
    · exact ⟨(by decide : Text.IsLine Token.Kind.finish.label), fun _ hliteral => by cases hliteral⟩
  have hstep := invariant_plain.program nestingLimit _ hstart
  rw [ofTokens] at h
  cases hprogram : program nestingLimit (Cursor.ofTokens tokens) with
  | done trees rest =>
      rw [hprogram] at h
      cases h
  | refused why rest =>
      rw [hprogram] at h hstep
      obtain rfl := Except.error.inj h
      obtain ⟨hwhy, hrest⟩ := hstep
      have hfound := (hrest rest.current List.mem_cons_self).isLine_shown
      cases why with
      | nestedTooDeeply =>
          have hdeep : Text.IsLine "ParseError: program is nested too deeply at " := by decide
          exact Text.isLine_append.mpr ⟨hdeep, Text.isLine_position _⟩
      | expected what =>
          have hwhat : Text.IsLine what.text := hwhy
          simp only [SyntaxFault.message, Text.isLine_append, hwhat, hfound,
            Text.isLine_position]
          decide

/-- What is wrong with a text is told on one line. -/
theorem isLine_message_of_source {text : String} {fault : SourceFault}
    (h : source text = .error fault) : Text.IsLine fault.message := by
  unfold source tokensOf at h
  cases hscan : Token.scan text with
  | error unclosed =>
      rw [hscan] at h
      change Except.error (SourceFault.unclosed unclosed) = Except.error fault at h
      have hmessage : Text.IsLine unclosed.message :=
        Text.isLine_append.mpr ⟨by decide, Text.isLine_position _⟩
      exact Except.error.inj h ▸ hmessage
  | ok tokens =>
      rw [hscan] at h
      change treesOf tokens = .error fault at h
      unfold treesOf at h
      cases hparse : ofTokens tokens with
      | ok trees =>
          rw [hparse] at h
          cases h
      | error malformed =>
          rw [hparse] at h
          obtain rfl := Except.error.inj h
          exact isLine_message_of_ofTokens (Token.isPlain_of_scan hscan) hparse

end Parse

end Sprig

import NullableMarker.Lexeme

/-!
# Token streams

Trivia is attached to the tokens around it: what follows a token up to and with the first end of
line trails it, everything else leads the token after it. The end-of-file token takes what is left.
-/

namespace NullableMarker

/-! ## Attaching trivia -/

/-- The trivia at the start of `ls` up to and with the first end of line, and the lexemes after. -/
def trailingTrivia : List Lexeme → List Trivia × List Lexeme
  | [] => ([], [])
  | l :: ls =>
    match l.kind with
    | .token _ => ([], l :: ls)
    | .trivia .endOfLine => ([⟨.endOfLine, String.ofList l.text⟩], ls)
    | .trivia kind =>
      let (more, rest) := trailingTrivia ls
      (⟨kind, String.ofList l.text⟩ :: more, rest)

theorem trailingTrivia_length (ls : List Lexeme) :
    (trailingTrivia ls).2.length ≤ ls.length := by
  induction ls with
  | nil => simp [trailingTrivia]
  | cons l ls ih =>
    unfold trailingTrivia
    split
    · simp
    · simp
    · simp only [List.length_cons]; omega

/-- Tokens with their trivia, and the trivia that leads the end of the file. -/
def attach (leading : List Trivia) (ls : List Lexeme) : List Token × List Trivia :=
  match ls with
  | [] => ([], leading)
  | l :: ls =>
    match l.kind with
    | .trivia kind => attach (leading ++ [⟨kind, String.ofList l.text⟩]) ls
    | .token kind =>
      let (tokens, last) := attach [] (trailingTrivia ls).2
      (⟨kind, String.ofList l.text, some l.offset, l.place, leading, (trailingTrivia ls).1⟩
        :: tokens, last)
termination_by ls.length
decreasing_by
  · simp
  · have := trailingTrivia_length ls
    simp; omega

/-! ## Streams -/

/-- The tokens of a source, the end-of-file token apart, and the symbols defined at its end. -/
structure TokenStream where
  tokens : List Token
  eof : Token
  symbols : List String
  deriving Repr, DecidableEq

namespace TokenStream

/-- All tokens, the end-of-file token last. -/
def all (stream : TokenStream) : List Token := stream.tokens ++ [stream.eof]

/-- The tokens of a source cut into lexemes. -/
def ofCut (pieces : Cut) : TokenStream :=
  let (tokens, last) := attach [] pieces.lexemes
  { tokens
    eof := ⟨.eof, "", some pieces.final.offset, pieces.final.place, last, []⟩
    symbols := pieces.final.region.symbols }

/-- The tokens of a source, read with the given symbols defined. -/
def ofSource (source : String) (defined : List String) : Except LexError TokenStream :=
  (cut { region := Region.start defined } source.toList).map ofCut

end TokenStream

end NullableMarker

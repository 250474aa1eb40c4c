import NullableMarker.Annotate.Mark
import NullableMarker.Decision.Rule

/-!
# Decisions

For every declaration site, whether its type may be null and which rule says so.
-/

namespace NullableMarker

/-- What was decided for a declaration. -/
structure Decision where
  kind : SiteKind
  name : String
  offset : Option Nat
  line : Nat
  optional : Bool
  /-- The rule that decided, unless none applied. -/
  rule : Option String := none
  deriving Repr, DecidableEq

namespace Decision

/-- The rule as listings show it. -/
def ruleLabel (d : Decision) : String := d.rule.getD "default"

/-- One line for the log. -/
def describe (d : Decision) : String :=
  let optional := if d.optional then "True" else "False"
  s!"{d.kind.word} {d.name} (line {d.line}): optional={optional} [{d.ruleLabel}]"

end Decision

namespace Site

/-- The name and the ruling of the first rule that applies. The type is resolved only when no rule
about the declaration applies. -/
def ruling? (p : Profile) (s : Site) : Resolve (Option (String × Ruling)) := do
  match ← firstRule p s s.kind.rules.bySite with
  | some rule => return some (rule.name, rule.ruling)
  | none =>
    if s.kind.rules.byType.isEmpty then return none
    else
      match ← s.declaration.typeOf with
      | none => return none
      | some symbol =>
        let known : KnownType := ⟨(← get).table, symbol⟩
        return (← firstRule p known s.kind.rules.byType).map fun r => (r.name, r.ruling)

/-- Whether a ruling makes the declaration optional. -/
def holds (p : Profile) (s : Site) : Ruling → Resolve Bool
  | .optional => return true
  | .required => return false
  | .unlessGuarded => return !(← p.isGuarded s.declaration)

/-- Judges a site. -/
def judge (p : Profile) (s : Site) : Resolve Decision := do
  let undecided : Decision :=
    { kind := s.kind, name := s.name, offset := s.offset?, line := s.line, optional := false }
  match ← s.ruling? p with
  | none => return undecided
  | some (name, ruling) =>
    let optional ← s.holds p ruling
    return { undecided with optional, rule := some name }

/-- Judges a site and remarks on it. -/
def judgeAloud (p : Profile) (s : Site) : Resolve Decision := do
  let d ← s.judge p
  remark d.describe
  return d

end Site

/-- Judges sites in order. -/
def judgeAll (p : Profile) (sites : List Site) : Resolve (List Decision) :=
  sites.mapM (Site.judgeAloud p)

namespace Environment

/-- The decisions for all sites, in source order, and what was resolved on the way. -/
def judged (env : Environment) (p : Profile) : Except BadReference (List Decision × Resolution) :=
  (judgeAll p env.sites).run env.resolution

/-- The decisions for all sites, in source order. -/
def decisions (env : Environment) (p : Profile) : Except BadReference (List Decision) :=
  (env.judged p).map (·.1)

end Environment

/-- The verdict table that decisions make up. -/
def verdictsOf (decisions : List Decision) : Verdicts :=
  decisions.foldl (fun v d => match d.offset with
    | some offset => upsert offset d.optional v
    | none => v) []

end NullableMarker

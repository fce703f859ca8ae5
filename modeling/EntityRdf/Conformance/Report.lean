import EntityRdf.Json.Basic

/-!
# Conformance reports

A report is the list of what the checks found, in the order in which they ran.
A report passes unless a finding is a failure; warnings do not count.
-/

namespace EntityRdf

/-- How serious a finding is. -/
inductive Severity where
  | pass
  | warning
  | failure
deriving DecidableEq, Repr

/-- The four-letter label of a severity in a text report. -/
def Severity.label : Severity → String
  | .pass => "PASS"
  | .warning => "WARN"
  | .failure => "FAIL"

/-- The word for a severity in a JSON report. -/
def Severity.word : Severity → String
  | .pass => "pass"
  | .warning => "warning"
  | .failure => "failure"

/-- What one check found. -/
structure Finding where
  check : String
  message : String
  severity : Severity
  /-- The offending places, one per line. -/
  details : List String
deriving DecidableEq, Repr

namespace Finding

def pass (check message : String) : Finding := ⟨check, message, .pass, []⟩

def warn (check message : String) (details : List String) : Finding :=
  ⟨check, message, .warning, details⟩

def fail (check message : String) (details : List String) : Finding :=
  ⟨check, message, .failure, details⟩

def isFailure (f : Finding) : Bool := f.severity = .failure

/-- The finding as a JSON object; no details, no member for them. -/
def toJson (f : Finding) : Json := .obj <|
  [("validator", .str f.check), ("message", .str f.message), ("severity", .str f.severity.word)] ++
  if f.details.isEmpty then [] else [("details", .arr (f.details.map .str))]

/-- The lines of the finding in a text report. -/
def lines (f : Finding) : List String :=
  s!"[{f.severity.label}] {f.check}: {f.message}" :: f.details.map ("       " ++ ·)

end Finding

/-- What several checks found. -/
structure Report where
  findings : List Finding
deriving DecidableEq, Repr

namespace Report

/-- The report without findings. -/
def empty : Report := ⟨[]⟩

instance : Inhabited Report := ⟨empty⟩

def push (r : Report) (f : Finding) : Report := ⟨r.findings ++ [f]⟩

/-- One report after another. -/
def append (r s : Report) : Report := ⟨r.findings ++ s.findings⟩

instance : Append Report := ⟨append⟩

/-- The number of findings of a severity. -/
def count (r : Report) (s : Severity) : Nat := (r.findings.filter (·.severity = s)).length

def allPassed (r : Report) : Bool := r.count .failure = 0

def ofCheck (r : Report) (check : String) : List Finding := r.findings.filter (·.check == check)

/-- Whether a check has failed. -/
def failed (r : Report) (check : String) : Bool := (r.ofCheck check).any Finding.isFailure

/-- A check has failed if one of its findings is a failure. Warnings do not count. -/
theorem failed_iff {r : Report} {check : String} :
    r.failed check = true ↔ ∃ f ∈ r.findings, f.check = check ∧ f.severity = .failure := by
  simp [failed, ofCheck, Finding.isFailure]

/-- The report as a JSON object. -/
def toJson (r : Report) : Json := .obj [("results", .arr (r.findings.map Finding.toJson))]

/-- The closing line of a text report. -/
def summary (r : Report) : String :=
  "Summary: " ++ toString (r.count .pass) ++ " passed, " ++ toString (r.count .warning) ++
    " warnings, " ++ toString (r.count .failure) ++ " failed"

/-- The report on a file as text. -/
def text (r : Report) (path : String) : String :=
  let lines := [s!"Mapping conformance: {path}", ""] ++ r.findings.flatMap Finding.lines ++
    ["", r.summary]
  String.join (lines.map (· ++ "\n"))

end Report

end EntityRdf

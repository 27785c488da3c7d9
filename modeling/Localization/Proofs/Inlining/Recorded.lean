import Mathlib
import Localization.Proofs.Inlining.Batch

/-! Records of findings.

The record of a chunk is built by recording findings and by putting other records, built in the
same way, behind it: a `Recording` is one such step, and steps nest. Whatever the nesting, a
record is that of its findings in order (`recordOf_eq`), so one record behind another is the
record of the steps of both (`recordOf_append`). Every missing line stands in it once, where it
was first found, and every other line as often as it was found. -/
namespace Localization.Inlining

/-- A step in which a record is built. -/
inductive Recording where
  | finding (f : Finding)
  /-- A record that other steps built is put behind. -/
  | record (steps : List Recording)

namespace Recording

mutual

/-- The findings of a step, in order. -/
def findings : Recording → List Finding
  | finding f => [f]
  | record steps => findingsOf steps

def findingsOf : List Recording → List Finding
  | [] => []
  | step :: rest => step.findings ++ findingsOf rest

end

mutual

/-- A record after a step. -/
def apply (r : Findings) : Recording → Findings
  | finding f => r.record f
  | record steps => r ++ applyAll .empty steps

/-- A record after steps in order. -/
def applyAll (r : Findings) : List Recording → Findings
  | [] => r
  | step :: rest => applyAll (step.apply r) rest

end

/-- The record that steps build. -/
def recordOf (steps : List Recording) : Findings := applyAll .empty steps

theorem findingsOf_append (a b : List Recording) :
    findingsOf (a ++ b) = findingsOf a ++ findingsOf b := by
  induction a with
  | nil => rfl
  | cons step rest ih => rw [List.cons_append, findingsOf, ih, findingsOf, List.append_assoc]

end Recording

/-! ### Lines of findings -/

namespace Finding

/-- The line of a missing value. -/
def missingLine? : Finding → Option Text
  | f@(missing _ _) => some f.line
  | _ => none

/-- The line of a key that is only known at run time. -/
def keyLine? : Finding → Option Text
  | f@(dynamicKey _) => some f.line
  | _ => none

/-- The line of anything else that is only known at run time. -/
def paramsLine? : Finding → Option Text
  | f@(dynamicParams _) => some f.line
  | f@(dynamicPlural _) => some f.line
  | _ => none

end Finding

namespace Findings

theorem mem_foldl_addOnce {kept lines : List Text} {line : Text} :
    line ∈ lines.foldl addOnce kept ↔ line ∈ kept ∨ line ∈ lines := by
  rw [foldl_addOnce, List.mem_append, List.mem_eraseDups, List.mem_filter]
  by_cases h : line ∈ kept <;> simp [h]

/-- A line may be added once before or after the lines are put behind others. -/
theorem foldl_addOnce_addOnce (kept lines : List Text) (line : Text) :
    (addOnce lines line).foldl addOnce kept = addOnce (lines.foldl addOnce kept) line := by
  rw [addOnce]
  split
  · next h =>
    have hmem : line ∈ lines.foldl addOnce kept :=
      mem_foldl_addOnce.mpr (.inr (List.contains_iff_mem.mp h))
    rw [addOnce, if_pos (List.contains_iff_mem.mpr hmem)]
  · rw [List.foldl_append]
    rfl

/-! ### A record is that of its findings -/

theorem append_eq (a b : Findings) : a ++ b = append a b := rfl

theorem append_empty (r : Findings) : r ++ empty = r := by
  rw [append_eq, append, empty, List.append_nil, List.append_nil]
  rfl

/-- A finding may be recorded before or after the record is put behind another. -/
theorem append_record (r s : Findings) (f : Finding) : r ++ s.record f = (r ++ s).record f := by
  cases f with
  | missing lang key =>
    exact congrArg (Findings.mk · _ _) (foldl_addOnce_addOnce r.missing s.missing _)
  | dynamicKey call => exact congrArg (Findings.mk _ · _) (List.append_assoc ..).symm
  | dynamicParams call => exact congrArg (Findings.mk _ _) (List.append_assoc ..).symm
  | dynamicPlural call => exact congrArg (Findings.mk _ _) (List.append_assoc ..).symm

/-- The record of some findings behind another one: they are recorded there in order. -/
theorem append_ofList_eq (r : Findings) (fs : List Finding) :
    r ++ ofList fs = fs.foldl record r := by
  induction fs using List.reverseRecOn with
  | nil => exact append_empty r
  | append_singleton fs f ih =>
    rw [List.foldl_concat, ← ih, ← append_record, ofList, ofList, List.foldl_concat]

/-- The lines of a record after findings. -/
theorem foldl_record (r : Findings) (fs : List Finding) :
    fs.foldl record r =
      ⟨(fs.filterMap Finding.missingLine?).foldl addOnce r.missing, r.dynamicKeys ++
        fs.filterMap Finding.keyLine?,
        r.dynamicParams ++ fs.filterMap Finding.paramsLine?⟩ := by
  induction fs generalizing r with
  | nil => simp
  | cons f rest ih =>
    rw [List.foldl_cons, ih]
    cases f with
    | missing lang key => rfl
    | dynamicKey call => exact congrArg (Findings.mk _ · _) (List.append_assoc ..)
    | dynamicParams call => exact congrArg (Findings.mk _ _) (List.append_assoc ..)
    | dynamicPlural call => exact congrArg (Findings.mk _ _) (List.append_assoc ..)

end Findings

namespace Recording

mutual

theorem apply_eq (r : Findings) :
    ∀ step : Recording, step.apply r = step.findings.foldl Findings.record r
  | finding _ => rfl
  | record steps => by
    rw [apply, applyAll_eq .empty steps]
    exact Findings.append_ofList_eq r (findingsOf steps)

/-- Steps record their findings in order, however they nest. -/
theorem applyAll_eq (r : Findings) : ∀ steps : List Recording,
    applyAll r steps = (findingsOf steps).foldl Findings.record r
  | [] => rfl
  | step :: rest => by
    rw [applyAll, applyAll_eq (step.apply r) rest, apply_eq r step, findingsOf, List.foldl_append]

end

/-- The record that steps build is that of their findings. -/
theorem recordOf_eq (steps : List Recording) : recordOf steps = .ofList (findingsOf steps) :=
  applyAll_eq .empty steps

/-- **One record behind another is the record of the steps of both.** So putting records behind each
other is associative, and the empty record does nothing. In a record every missing line stands once,
in the order in which they were first found, and no other line is left out. -/
theorem recordOf_append :
    (∀ a b, recordOf a ++ recordOf b = recordOf (a ++ b)) ∧
      (∀ a b c, recordOf a ++ recordOf b ++ recordOf c = recordOf a ++ (recordOf b ++ recordOf c)) ∧
      (∀ a, .empty ++ recordOf a = recordOf a ∧ recordOf a ++ .empty = recordOf a) ∧
      ∀ a, (recordOf a).missing.Nodup ∧
        (recordOf a).missing = ((findingsOf a).filterMap Finding.missingLine?).eraseDups ∧
        (recordOf a).dynamicKeys = (findingsOf a).filterMap Finding.keyLine? ∧
        (recordOf a).dynamicParams = (findingsOf a).filterMap Finding.paramsLine? := by
  have happend (a b : List Recording) : recordOf a ++ recordOf b = recordOf (a ++ b) := by
    rw [recordOf_eq a, recordOf_eq b, recordOf_eq, Findings.append_ofList_eq, findingsOf_append,
      Findings.ofList, Findings.ofList, List.foldl_append]
  refine ⟨happend, fun a b c => ?_, fun a => ⟨?_, Findings.append_empty _⟩, fun a => ?_⟩
  · rw [happend, happend, happend, happend, List.append_assoc]
  · exact happend [] a
  · have hlines := Findings.foldl_record .empty (findingsOf a)
    have hmissing :
        (recordOf a).missing = ((findingsOf a).filterMap Finding.missingLine?).eraseDups := by
      rw [recordOf_eq, Findings.ofList, hlines, ← Findings.foldl_addOnce_nil]
      rfl
    refine ⟨hmissing ▸ Extraction.nodup_eraseDups _, hmissing, ?_, ?_⟩ <;>
      rw [recordOf_eq, Findings.ofList, hlines] <;> rfl

end Recording

end Localization.Inlining

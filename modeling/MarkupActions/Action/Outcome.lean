import MarkupActions.Json.Writer
import MarkupActions.Json.Record

/-!
# Results

What is reported of an action that has been run. The two constructors `ok` and `failed` keep to the
rule that an error is given exactly where there was no success; a result that is read may break it.
-/

namespace MarkupActions

structure ActionResult where
  action : String
  success : Bool
  result : String
  error : Option String
deriving DecidableEq

namespace ActionResult

open Json (optionalMember required? optional? string? bool?)

def ok (action result : String) : ActionResult := ⟨action, true, result, none⟩

def failed (action error : String) : ActionResult := ⟨action, false, "Error: " ++ error, some error⟩

def toJson (r : ActionResult) : Json :=
  .object ([("action", .string r.action), ("success", .bool r.success),
    ("result", .string r.result)] ++
    optionalMember Json.string "error" r.error)

def ofJson? (j : Json) : Option ActionResult := do
  let m ← j.record? .refused ["action", "success", "result", "error"]
  some ⟨← required? string? "action" m, ← required? bool? "success" m,
    ← required? string? "result" m, ← optional? string? "error" m⟩

end ActionResult

end MarkupActions

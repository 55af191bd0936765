import StyleExports.Extraction

namespace StyleExports

def setAt {α : Type} (m : String → Option α) (key : String) (v : Option α) : String → Option α :=
  fun k => if k = key then v else m k

@[simp] theorem setAt_self {α : Type} (m : String → Option α) (key : String) (v : Option α) :
    setAt m key v key = v := by simp [setAt]

@[simp] theorem setAt_of_ne {α : Type} {m : String → Option α} {key k : String} {v : Option α}
    (h : k ≠ key) : setAt m key v k = m k := by simp [setAt, h]

/-- What a build remembers between its two phases, by the ids of requests and of stylesheets. -/
@[ext] structure BuildContext where
  /-- The extract that waits under the id of a request. -/
  results : String → Option Extract
  stylesheets : String → Option String

namespace BuildContext

def fresh : BuildContext := ⟨fun _ => none, fun _ => none⟩

def store (x : BuildContext) (id : String) (e : Extract) : BuildContext :=
  { x with results := setAt x.results id (some e) }

def drop (x : BuildContext) (id : String) : BuildContext :=
  { x with results := setAt x.results id none }

def register (x : BuildContext) (id css : String) : BuildContext :=
  { x with stylesheets := setAt x.stylesheets id (some css) }

def hasResult (x : BuildContext) (id : String) : Bool := (x.results id).isSome

section

variable {x : BuildContext} {id k : String}

@[simp] theorem results_store_self (e : Extract) : (x.store id e).results id = some e :=
  setAt_self _ _ _

@[simp] theorem stylesheets_store (e : Extract) : (x.store id e).stylesheets = x.stylesheets := rfl

@[simp] theorem results_drop_self : (x.drop id).results id = none := setAt_self _ _ _

@[simp] theorem results_drop_of_ne (h : k ≠ id) : (x.drop id).results k = x.results k :=
  setAt_of_ne h

@[simp] theorem stylesheets_drop : (x.drop id).stylesheets = x.stylesheets := rfl

@[simp] theorem stylesheets_register_self (css : String) :
    (x.register id css).stylesheets id = some css := setAt_self _ _ _

@[simp] theorem stylesheets_register_of_ne (h : k ≠ id) (css : String) :
    (x.register id css).stylesheets k = x.stylesheets k := setAt_of_ne h

theorem drop_of_none (h : x.results id = none) : x.drop id = x := by
  refine BuildContext.ext (funext fun k => ?_) rfl
  by_cases hk : k = id
  · rw [hk, results_drop_self, h]
  · exact results_drop_of_ne hk

end

end BuildContext

end StyleExports

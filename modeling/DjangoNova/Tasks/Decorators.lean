import DjangoNova.Tasks.AsyncioBackend

/-!
# From a decorated function to the payload

The arguments of a decorated function go through `NovaTaskEngine.submit`
and the `submit` of the backend. Both have parameters of their own, to
which a keyword of the caller with the same name is bound.
-/

namespace DjangoNova

section Binding

variable {O : Type}

/-- A call gives two values to one parameter. -/
inductive BindingError where
  | multipleValues (name : Str)

/-- Bind the keywords of a call whose positional parameters are filled:
the values for keyword-only parameters, and `**kwargs`. -/
def bindKeywords (positional keywordOnly : List Str) (keywords : List (Str × O)) :
    Except BindingError (List (Str × O) × List (Str × O)) :=
  match keywords.find? fun kv ↦ kv.1 ∈ positional with
  | some kv => .error (.multipleValues kv.1)
  | none => .ok (keywords.filter fun kv ↦ kv.1 ∈ keywordOnly,
      keywords.filter fun kv ↦ kv.1 ∉ keywordOnly)

/-- The positional parameters of both `submit` methods. -/
def submitPositional : List Str := ["self".toList, "func".toList]

/-- Their keyword-only parameters. -/
def submitOptions : List Str := ["delay".toList, "max_retries".toList, "retry_delay".toList]

structure TaskOptions where
  delay : ℚ
  maxRetries : ℤ
  retryDelay : ℚ

/-- The options with their defaults. `number` and `integer` read the number
that a value stands for. -/
def TaskOptions.read (number : O → ℚ) (integer : O → ℤ) (bound : List (Str × O)) : TaskOptions where
  delay := ((bound.lookup "delay".toList).map number).getD 0
  maxRetries := ((bound.lookup "max_retries".toList).map integer).getD 0
  retryDelay := ((bound.lookup "retry_delay".toList).map number).getD 1

variable {I F : Type}

/-- The call of `AsyncioBackend.submit` with explicit options; a keyword that
names a parameter gives it a second value. -/
def AsyncioBackend.payload (id : I) (func : F) (args : List O) (o : TaskOptions)
    (kwargs : List (Str × O)) : Except BindingError (Payload I F O) :=
  match kwargs.find? fun kv ↦ kv.1 ∈ submitPositional ++ submitOptions with
  | some kv => .error (.multipleValues kv.1)
  | none => .ok ⟨id, func, args, kwargs, o.delay, o.maxRetries, o.retryDelay, 0⟩

variable (number : O → ℚ) (integer : O → ℤ)

/-- `NovaTaskEngine.submit`, up to the payload that the backend enqueues. -/
def NovaTaskEngine.submit (id : I) (func : F) (args : List O) (keywords : List (Str × O)) :
    Except BindingError (Payload I F O) := do
  let (bound, kwargs) ← bindKeywords submitPositional submitOptions keywords
  AsyncioBackend.payload id func args (.read number integer bound) kwargs

/-- Awaiting the function that `nova_task` makes of `func`. -/
def novaTask (func : F) (id : I) (args : List O) (kwargs : List (Str × O)) :
    Except BindingError (Payload I F O) :=
  NovaTaskEngine.submit number integer id func args kwargs

variable {kwargs : List (Str × O)}

/-- The keywords that do not reach the task function. -/
def reservedKeywords : List Str := submitPositional ++ submitOptions

theorem novaTask_ok (func : F) (id : I) (args : List O)
    (h : ∀ kv ∈ kwargs, kv.1 ∉ reservedKeywords) :
    ∃ p, novaTask number integer func id args kwargs = .ok p ∧ p.taskId = id ∧ p.attempts = 0 ∧
      p.func = func ∧ p.args = args ∧ p.kwargs = kwargs := by
  have hpositional : (kwargs.find? fun kv ↦ kv.1 ∈ submitPositional) = none := by
    rw [List.find?_eq_none]
    intro kv hkv
    simpa using fun hmem ↦ h kv hkv (List.mem_append_left _ hmem)
  have hreserved : (kwargs.find? fun kv ↦ kv.1 ∈ submitPositional ++ submitOptions) = none := by
    rw [List.find?_eq_none]
    intro kv hkv hmem
    exact h kv hkv (of_decide_eq_true hmem)
  have hkept : (kwargs.filter fun kv ↦ kv.1 ∉ submitOptions) = kwargs := by
    rw [List.filter_eq_self]
    intro kv hkv
    simpa using fun hmem ↦ h kv hkv (List.mem_append_right _ hmem)
  unfold novaTask NovaTaskEngine.submit bindKeywords AsyncioBackend.payload
  rw [hpositional]
  dsimp only [bind, Except.bind]
  rw [hkept, hreserved]
  exact ⟨_, rfl, rfl, rfl, rfl, rfl, rfl⟩

variable {number integer}

/-- A payload that is enqueued has no reserved keyword. -/
theorem novaTask_kwargs {func : F} {id : I} {args : List O} {p : Payload I F O}
    (h : novaTask number integer func id args kwargs = .ok p) :
    ∀ kv ∈ p.kwargs, kv.1 ∉ reservedKeywords := by
  unfold novaTask NovaTaskEngine.submit bindKeywords AsyncioBackend.payload at h
  split at h
  · cases h
  · dsimp only [bind, Except.bind] at h
    split at h
    · cases h
    next hnone =>
      cases h
      intro kv hkv hmem
      exact List.find?_eq_none.mp hnone kv hkv (decide_eq_true hmem)

end Binding

end DjangoNova

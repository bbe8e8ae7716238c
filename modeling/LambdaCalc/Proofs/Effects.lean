import LambdaCalc.Fault

set_option autoImplicit false

/-! # Calculations that keep what they have done

A calculation may change a state and may stop. If it stops, the state is what it was changed into
until then. What comes of such a calculation is told by that of its parts, from the first one to the
one that stops. -/

namespace LambdaCalc

variable {σ α β : Type}

theorem run_bind (first : ExceptT Stop (StateM σ) α) (second : α → ExceptT Stop (StateM σ) β)
    (state : σ) :
    (first >>= second).run state
      = match first.run state with
        | (.ok value, state) => (second value).run state
        | (.error stop, state) => (.error stop, state) := by
  show ExceptT.bindCont second (first.run state).1 (first.run state).2 = _
  rcases first.run state with ⟨_ | _, _⟩ <;> rfl

theorem run_bind_of_ok {first : ExceptT Stop (StateM σ) α}
    {second : α → ExceptT Stop (StateM σ) β} {state between : σ} {value : α}
    (h : first.run state = (.ok value, between)) :
    (first >>= second).run state = (second value).run between := by
  rw [run_bind, h]

theorem run_bind_of_error {first : ExceptT Stop (StateM σ) α}
    {second : α → ExceptT Stop (StateM σ) β} {state between : σ} {stop : Stop}
    (h : first.run state = (.error stop, between)) :
    (first >>= second).run state = (.error stop, between) := by
  rw [run_bind, h]

/-- A value made of the result changes neither the state nor what stops the calculation. -/
theorem run_bind_pure (first : ExceptT Stop (StateM σ) α) (f : α → β) (state : σ) :
    (first >>= fun value => pure (f value)).run state
      = ((first.run state).1.map f, (first.run state).2) := by
  rw [run_bind]
  rcases first.run state with ⟨_ | _, _⟩ <;> rfl

theorem run_get (state : σ) : (get : ExceptT Stop (StateM σ) σ).run state = (.ok state, state) :=
  rfl

theorem run_set (state state' : σ) :
    (set state' : ExceptT Stop (StateM σ) PUnit).run state = (.ok ⟨⟩, state') :=
  rfl

theorem run_modify (change : σ → σ) (state : σ) :
    (modify change : ExceptT Stop (StateM σ) Unit).run state = (.ok (), change state) :=
  rfl

/-- What is done in the end changes the state and not the outcome. -/
theorem run_tryFinally (first : ExceptT Stop (StateM σ) α) (change : σ → σ) (state : σ) :
    (tryFinally first (modify change : ExceptT Stop (StateM σ) Unit)).run state
      = ((first.run state).1, change (first.run state).2) := by
  show tryFinally first _ state = ((first state).1, change (first state).2)
  cases hrun : first state with
  | mk outcome between =>
    simp only [tryFinally, tryFinally', Functor.map, ExceptT.map, ExceptT.mk, bind, StateT.bind,
      hrun]
    cases outcome <;> rfl

/-- Where a calculation is given up, another one goes on with the state that it has left. -/
theorem run_tryCatch (first : ExceptT Stop (StateM σ) α) (second : Stop → ExceptT Stop (StateM σ) α)
    (state : σ) :
    (tryCatch first second).run state
      = match first.run state with
        | (.ok value, state) => (.ok value, state)
        | (.error stop, state) => (second stop).run state := by
  show (ExceptT.tryCatch first second) state = _
  simp only [ExceptT.tryCatch, ExceptT.mk, bind, StateT.bind]
  rcases hrun : first state with ⟨stop | value, state'⟩
  · simp only [ExceptT.run, hrun]
  · simp only [ExceptT.run, hrun]
    rfl

end LambdaCalc

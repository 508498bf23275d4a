import Mathlib.Logic.Relation

/-! Programs that ask questions and go on with the answers, in a world that also moves by itself. -/

namespace Client

/-- A program: its result, or a question and what it does with the answer. -/
inductive Prog (Q A ρ : Type*) where
  | done (out : ρ)
  | ask (q : Q) (next : A → Prog Q A ρ)

section
variable {Q A ρ σ : Type*} {step : σ → σ → Prop} {exchange : σ → Q → A → σ → Prop}

/-- A run from one state of the world to another, with the result. Between two questions the world takes any steps. -/
inductive Runs (step : σ → σ → Prop) (exchange : σ → Q → A → σ → Prop) : Prog Q A ρ → σ → ρ → σ → Prop
  | done {out : ρ} {s : σ} : Runs step exchange (.done out) s out s
  | idle {prog : Prog Q A ρ} {s s' s'' : σ} {out : ρ} (h : step s s') (rest : Runs step exchange prog s' out s'') :
      Runs step exchange prog s out s''
  | ask {q : Q} {next : A → Prog Q A ρ} {s s' s'' : σ} {answer : A} {out : ρ} (h : exchange s q answer s')
      (rest : Runs step exchange (next answer) s' out s'') : Runs step exchange (.ask q next) s out s''

theorem Runs.done_inv {out out' : ρ} {s s' : σ} (h : Runs step exchange (.done out : Prog Q A ρ) s out' s') :
    out' = out ∧ Relation.ReflTransGen step s s' := by
  generalize hprog : (Prog.done out : Prog Q A ρ) = prog at h
  induction h with
  | done =>
      injection hprog with hout
      exact ⟨hout.symm, .refl⟩
  | idle h _ ih => exact ⟨(ih hprog).1, .head h (ih hprog).2⟩
  | ask => cases hprog

/-- A run of a question: the world moves, the question is answered, and the program goes on. -/
theorem Runs.ask_inv {q : Q} {next : A → Prog Q A ρ} {s s' : σ} {out : ρ}
    (h : Runs step exchange (.ask q next) s out s') :
    ∃ s₁ answer s₂, Relation.ReflTransGen step s s₁ ∧ exchange s₁ q answer s₂ ∧
      Runs step exchange (next answer) s₂ out s' := by
  generalize hprog : Prog.ask q next = prog at h
  induction h with
  | done => cases hprog
  | idle h _ ih =>
      obtain ⟨s₁, answer, s₂, hsteps, hrest⟩ := ih hprog
      exact ⟨s₁, answer, s₂, .head h hsteps, hrest⟩
  | ask h rest =>
      injection hprog with hq hnext
      subst hq hnext
      exact ⟨_, _, _, .refl, h, rest⟩

/-- The world may move before a run begins. -/
theorem Runs.after {prog : Prog Q A ρ} {s s₁ s' : σ} {out : ρ} (hsteps : Relation.ReflTransGen step s s₁)
    (h : Runs step exchange prog s₁ out s') : Runs step exchange prog s out s' := by
  induction hsteps using Relation.ReflTransGen.head_induction_on with
  | refl => exact h
  | head hstep _ ih => exact .idle hstep ih

/-- One program, then another that depends on its result. -/
def Prog.bind {τ : Type*} : Prog Q A ρ → (ρ → Prog Q A τ) → Prog Q A τ
  | .done out, f => f out
  | .ask q next, f => .ask q fun answer => (next answer).bind f

theorem Runs.bind {τ : Type*} {prog : Prog Q A ρ} {f : ρ → Prog Q A τ} {s s₁ s' : σ} {mid : ρ} {out : τ}
    (h : Runs step exchange prog s mid s₁) (hrest : Runs step exchange (f mid) s₁ out s') :
    Runs step exchange (prog.bind f) s out s' := by
  induction h with
  | done => exact hrest
  | idle hstep _ ih => exact .idle hstep (ih hrest)
  | ask hask _ ih => exact .ask hask (ih hrest)

/-- A run of two programs is a run of the first, then one of the second. -/
theorem Runs.bind_inv {τ : Type*} {prog : Prog Q A ρ} {f : ρ → Prog Q A τ} {s s' : σ} {out : τ}
    (h : Runs step exchange (prog.bind f) s out s') :
    ∃ mid s₁, Runs step exchange prog s mid s₁ ∧ Runs step exchange (f mid) s₁ out s' := by
  induction prog generalizing s with
  | done mid => exact ⟨mid, s, .done, h⟩
  | ask q next ih =>
      obtain ⟨s₁, answer, s₂, hsteps, hask, hrest⟩ := Runs.ask_inv h
      obtain ⟨mid, s₃, hfirst, hsecond⟩ := ih answer hrest
      exact ⟨mid, s₃, .after hsteps (.ask hask hfirst), hsecond⟩

/-- What every step and every answer keeps holds after a run. -/
theorem Runs.preserves {Inv : σ → Prop} (hstep : ∀ s s', step s s' → Inv s → Inv s')
    (hexchange : ∀ s q answer s', exchange s q answer s' → Inv s → Inv s') {prog : Prog Q A ρ} {s s' : σ} {out : ρ}
    (h : Runs step exchange prog s out s') (hinv : Inv s) : Inv s' := by
  induction h with
  | done => exact hinv
  | idle h _ ih => exact ih (hstep _ _ h hinv)
  | ask h _ ih => exact ih (hexchange _ _ _ _ h hinv)

/-- A run is a run in a world that does more. -/
theorem Runs.mono {step' : σ → σ → Prop} {exchange' : σ → Q → A → σ → Prop} (hstep : ∀ s s', step s s' → step' s s')
    (hexchange : ∀ s q answer s', exchange s q answer s' → exchange' s q answer s') {prog : Prog Q A ρ} {s s' : σ}
    {out : ρ} (h : Runs step exchange prog s out s') : Runs step' exchange' prog s out s' := by
  induction h with
  | done => exact .done
  | idle h _ ih => exact .idle (hstep _ _ h) ih
  | ask h _ ih => exact .ask (hexchange _ _ _ _ h) ih

end

end Client

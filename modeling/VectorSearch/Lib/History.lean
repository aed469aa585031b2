import Mathlib.Data.List.Induction
import Mathlib.Logic.Function.Basic

/-! # Histories of a machine

A machine makes steps, and some of them show an event.  `history` are the events that a run shows, in
their order.  An abstract state is changed by events alone.

* `mem_history`: where an event of a history was shown.
* `abs_run`: if each step does to the abstract state what its event says, the abstract state after a
  run is that of its history.
* `Legal`, `legal_history`: if each event is allowed in the state in which it is shown, the history
  is a legal run of the abstract machine. -/

namespace History

variable {S A E M : Type} {perform : S → A → S} {event : S → A → Option E}

/-- The events of a run. -/
def history (perform : S → A → S) (event : S → A → Option E) : S → List A → List E
  | _, [] => []
  | s, a :: as => (event s a).toList ++ history perform event (perform s a) as

theorem history_append (s : S) (as bs : List A) :
    history perform event s (as ++ bs) =
      history perform event s as ++ history perform event (as.foldl perform s) bs := by
  induction as generalizing s with
  | nil => rfl
  | cons a as ih =>
      have hrest := ih (perform s a)
      simp only [List.cons_append, history, List.append_assoc, hrest, List.foldl_cons]

theorem history_concat (s : S) (as : List A) (a : A) :
    history perform event s (as ++ [a]) =
      history perform event s as ++ (event (as.foldl perform s) a).toList := by
  rw [history_append]
  simp only [history, List.append_nil]

/-- The history around a step that shows an event. -/
theorem history_split {s : S} {x y : List A} {a : A} {e : E}
    (he : event (x.foldl perform s) a = some e) :
    history perform event s (x ++ a :: y) = history perform event s x ++
      e :: history perform event ((x ++ [a]).foldl perform s) y := by
  rw [history_append, history, he, List.foldl_append]
  rfl

/-- An event of a history was shown in some step. -/
theorem mem_history {s : S} {as : List A} {e : E} :
    e ∈ history perform event s as ↔
      ∃ x a y, as = x ++ a :: y ∧ event (x.foldl perform s) a = some e := by
  induction as using List.reverseRecOn with
  | nil => simp [history]
  | append_singleton as a ih =>
      rw [history_concat, List.mem_append, ih, Option.mem_toList]
      constructor
      · rintro (⟨x, b, y, rfl, he⟩ | he)
        · exact ⟨x, b, y ++ [a], by simp, he⟩
        · exact ⟨as, a, [], rfl, he⟩
      · rintro ⟨x, b, y, has, he⟩
        obtain rfl | ⟨y', c, rfl⟩ := List.eq_nil_or_concat y
        · obtain ⟨rfl, hb⟩ := List.append_inj' has rfl
          obtain rfl := List.head_eq_of_cons_eq hb
          exact Or.inr he
        · rw [List.concat_eq_append, ← List.cons_append, ← List.append_assoc] at has
          obtain ⟨rfl, -⟩ := List.append_inj' has rfl
          exact Or.inl ⟨x, b, y', rfl, he⟩

/-! ### The abstract machine -/

section
variable {abs : S → M} {apply : M → E → M} {takes : M → E → Prop}

/-- What a step does to the abstract state is what its event says. -/
def Simulates (perform : S → A → S) (event : S → A → Option E) (abs : S → M) (apply : M → E → M)
    (s : S) (a : A) : Prop :=
  abs (perform s a) = (event s a).elim (abs s) (apply (abs s))

/-- Each event is allowed in its turn. -/
def Legal (apply : M → E → M) (takes : M → E → Prop) : M → List E → Prop
  | _, [] => True
  | m, e :: es => takes m e ∧ Legal apply takes (apply m e) es

theorem legal_append {m : M} {es fs : List E} : Legal apply takes m (es ++ fs) ↔
    Legal apply takes m es ∧ Legal apply takes (es.foldl apply m) fs := by
  induction es generalizing m with
  | nil => exact (true_and _).symm.to_iff
  | cons e es ih =>
      rw [List.cons_append, Legal, Legal, ih, and_assoc]
      rfl

theorem legal_map {E' : Type} {apply : M → E' → M} {takes : M → E' → Prop} (f : E → E') :
    ∀ {es : List E} {m : M}, Legal (fun m e => apply m (f e)) (fun m e => takes m (f e)) m es ↔
      Legal apply takes m (es.map f)
  | [], _ => Iff.rfl
  | _ :: _, _ => and_congr_right fun _ => legal_map f

/-- **The abstract state after a run** is that of its history. -/
theorem abs_run {s : S} {as : List A} (h : ∀ x a y, as = x ++ a :: y →
    Simulates perform event abs apply (x.foldl perform s) a) :
    abs (as.foldl perform s) = (history perform event s as).foldl apply (abs s) := by
  induction as using List.reverseRecOn with
  | nil => rfl
  | append_singleton as a ih =>
      have hrun := ih fun x b y has => h x b (y ++ [a]) (by rw [has]; simp)
      have hstep : abs (perform (as.foldl perform s) a) =
          (event (as.foldl perform s) a).elim (abs (as.foldl perform s))
            (apply (abs (as.foldl perform s))) := h as a [] rfl
      rw [List.foldl_append, List.foldl_cons, List.foldl_nil, hstep, history_concat,
        List.foldl_append, ← hrun]
      cases event (as.foldl perform s) a <;> rfl

/-- **The history of a run is legal.** -/
theorem legal_history {s : S} {as : List A} (hsim : ∀ x a y, as = x ++ a :: y →
    Simulates perform event abs apply (x.foldl perform s) a)
    (htakes : ∀ x a y e, as = x ++ a :: y → event (x.foldl perform s) a = some e →
      takes (abs (x.foldl perform s)) e) :
    Legal apply takes (abs s) (history perform event s as) := by
  induction as using List.reverseRecOn with
  | nil => trivial
  | append_singleton as a ih =>
      have hrest : ∀ x b y, as = x ++ b :: y → as ++ [a] = x ++ b :: (y ++ [a]) := by
        rintro x b y rfl
        simp
      have hbefore := ih (fun x b y has => hsim x b _ (hrest x b y has))
        fun x b y e has => htakes x b _ e (hrest x b y has)
      have hrun := abs_run fun x b y has => hsim x b _ (hrest x b y has)
      rw [history_concat, legal_append, ← hrun]
      refine ⟨hbefore, ?_⟩
      cases he : event (as.foldl perform s) a with
      | none => trivial
      | some e => exact ⟨htakes as a [] e rfl he, trivial⟩

end

end History

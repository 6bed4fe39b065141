import LazyVectors.Eval
import LazyVectors.Proofs.Checkers
/-!
Runs that keep a property of the heap. Evaluation changes the heap only by assignments, by calls
that bind their arguments, and by forcing promises; a property that these keep is kept by all of
it. The property may depend on which expressions are evaluated in which frames.
-/

set_option autoImplicit false

namespace LazyVectors

namespace Expr

def parts : Expr → List Expr
  | .constant _ => []
  | .lookup _ => []
  | .call callee args => callee :: args.filterMap Arg.expr?
  | .missing args => args
  | .index target subscripts _ => target :: subscripts.filterMap id
  | .assign _ value => [value]
  | .assignIndex _ subscripts _ value => value :: subscripts.filterMap id
  | .function _ => []
  | .block body => body

def assigned? : Expr → Option String
  | .assign name _ => some name
  | .assignIndex name _ _ _ => some name
  | _ => none

end Expr

namespace Run

variable {ω μ α β : Type} {I : Heap → Prop}

def after (m : Run ω μ α) (w : World ω μ) : World ω μ :=
  match m w with
  | .ok _ w' => w'
  | .error _ w' => w'

/-- Two runs that do the same in every world whose heap has a property, and leave one that has it
again. -/
def Alike (I : Heap → Prop) (m m' : Run ω μ α) : Prop :=
  ∀ w, I w.heap → m w = m' w ∧ I (m.after w).heap

abbrev Keeps (I : Heap → Prop) (m : Run ω μ α) : Prop := Alike I m m

theorem after_ok {m : Run ω μ α} {a : α} {w w' : World ω μ} (h : m w = .ok a w') :
    m.after w = w' := by
  simp [after, h]

theorem after_error {m : Run ω μ α} {e : Stop} {w w' : World ω μ} (h : m w = .error e w') :
    m.after w = w' := by
  simp [after, h]

theorem Keeps.of_heap {m : Run ω μ α} (h : ∀ w, (m.after w).heap = w.heap) : Keeps I m :=
  fun w hw => ⟨rfl, by rwa [h w]⟩

theorem Keeps.pure (a : α) : Keeps I (pure a : Run ω μ α) := .of_heap fun _ => rfl

theorem Keeps.fail (e : Failure) : Keeps I (Run.fail e : Run ω μ α) := .of_heap fun _ => rfl

theorem Keeps.throw (e : Stop) : Keeps I (throw e : Run ω μ α) := .of_heap fun _ => rfl

theorem Keeps.ofExcept (r : Except Failure α) : Keeps I (Run.ofExcept r : Run ω μ α) := by
  cases r <;> exact .of_heap fun _ => rfl

theorem Keeps.ofNoted (r : Noted α) : Keeps I (Run.ofNoted r : Run ω μ α) := by
  obtain ⟨ws, r⟩ := r
  cases r <;> exact .of_heap fun _ => rfl

theorem Alike.bind {m m' : Run ω μ α} {f f' : α → Run ω μ β} (hm : Alike I m m')
    (hf : ∀ a, Alike I (f a) (f' a)) : Alike I (m >>= f) (m' >>= f') := by
  intro w hw
  obtain ⟨hsame, hkept⟩ := hm w hw
  cases hr : m w with
  | error e w' =>
    have hleft : (m >>= f) w = .error e w' := by simp [Bind.bind, EStateM.bind, hr]
    have hright : (m' >>= f') w = .error e w' := by simp [Bind.bind, EStateM.bind, ← hsame, hr]
    rw [after_error hr] at hkept
    exact ⟨by rw [hleft, hright], by rwa [after_error hleft]⟩
  | ok a w' =>
    have hleft : (m >>= f) w = f a w' := by simp [Bind.bind, EStateM.bind, hr]
    have hright : (m' >>= f') w = f' a w' := by simp [Bind.bind, EStateM.bind, ← hsame, hr]
    rw [after_ok hr] at hkept
    obtain ⟨hnext, hlast⟩ := hf a w' hkept
    have hafter : (m >>= f).after w = (f a).after w' := by simp [after, hleft]
    exact ⟨by rw [hleft, hright, hnext], by rwa [hafter]⟩

theorem Alike.map {m m' : Run ω μ α} (f : α → β) (hm : Alike I m m') :
    Alike I (f <$> m) (f <$> m') :=
  hm.bind fun a => Keeps.pure (f a)

theorem get_bind (f : World ω μ → Run ω μ β) (w : World ω μ) : (get >>= f) w = f w w := rfl

theorem after_get_bind (f : World ω μ → Run ω μ β) (w : World ω μ) :
    (get >>= f).after w = (f w).after w := rfl

theorem Alike.get_bind {f f' : World ω μ → Run ω μ β}
    (hf : ∀ w, I w.heap → f w w = f' w w ∧ I ((f w).after w).heap) :
    Alike I (get >>= f) (get >>= f') := hf

theorem Alike.set_bind {f f' : Run ω μ β} {w : World ω μ} (hw : I w.heap) (hf : Alike I f f') :
    Alike I (set w >>= fun _ => f) (set w >>= fun _ => f') :=
  fun _ _ => hf w hw

end Run

/-- A property that assignments and calls keep. -/
structure Heap.Kept (I : Heap → Prop) : Prop where
  assign : ∀ {h : Heap} (f : FrameId) (name : String) (x : Value),
    I h → I (h.define f name (.value x))
  call : ∀ {h h' : Heap} {f : Function} {c : Closure} {args : List (Arg Expr)}
    {caller callee : FrameId}, I h → h.functions[c.function]? = some f →
    Call.bindArguments f c args caller h = .ok (callee, h') → I h'

/-- A property that is kept where only certain expressions are evaluated in certain frames. Both
may depend on a stage of the run; a call may lead to a stage at which more is known. -/
structure Heap.KeptWhere {σ : Type} (I : σ → Heap → Prop)
    (J : σ → Expr → FrameId → Prop) : Prop where
  part : ∀ {s : σ} {e x : Expr} {env : FrameId}, J s e env → x ∈ e.parts → J s x env
  assign : ∀ {s : σ} {h : Heap} {e : Expr} {env : FrameId} {name : String} (x : Value),
    I s h → J s e env → e.assigned? = some name → I s (h.define env name (.value x))
  call : ∀ {s : σ} {h h' : Heap} {f : Function} {c : Closure} {function : Expr}
    {args : List (Arg Expr)} {env callee : FrameId}, I s h → J s (.call function args) env →
    h.functions[c.function]? = some f → Call.bindArguments f c args env h = .ok (callee, h') →
    ∃ t, I t h' ∧ J t f.body callee ∧ ∀ {h''}, I t h'' → I s h''

theorem Heap.Kept.keptWhere {I : Heap → Prop} (hI : Heap.Kept I) :
    Heap.KeptWhere (fun _ : Unit => I) fun _ _ _ => True where
  part _ _ := trivial
  assign x hh _ _ := hI.assign _ _ x hh
  call hh _ hf hb := ⟨(), hI.call hh hf hb, trivial, id⟩

namespace Eval

open Run

variable {ω μ : Type} [Foreign ω] [Method μ] {ev ev' : Evaluator ω μ}

section Parts

variable {I : Heap → Prop} {J : Expr → FrameId → Prop}
  (hev : ∀ held e env, J e env → Alike I (ev held e env) (ev' held e env))
  (hforce : ∀ held id, Alike I (force ev held id) (force ev' held id))

include hforce in
theorem lookup_alike (held : List Handle) (name : String) (env : FrameId) :
    Alike I (lookup ev held name env) (lookup ev' held name env) := by
  refine Alike.get_bind fun w hw => ?_
  cases w.heap.lookup? env name with
  | none => exact Keeps.fail _ w hw
  | some b =>
    cases b with
    | value x => exact Keeps.pure x w hw
    | promise p => exact hforce held p w hw
    | missing => exact Keeps.fail _ w hw

omit [Foreign ω] [Method μ] in
theorem found_alike {next next' : Run ω μ (Option Closure)} (h : Alike I next next')
    (bound : Option Value) :
    Alike I
      (match bound with
        | some (.closure c) => pure (some c)
        | _ => next)
      (match bound with
        | some (.closure c) => pure (some c)
        | _ => next') := by
  split
  · exact Keeps.pure _
  · exact h

include hforce in
theorem findClosure_alike (held : List Handle) (name : String) (frames : List FrameId) :
    Alike I (findClosure ev held name frames) (findClosure ev' held name frames) := by
  induction frames with
  | nil => exact Keeps.pure none
  | cons f rest ih =>
    refine Alike.get_bind fun w hw => ?_
    cases w.heap.local? f name with
    | none => exact ((Keeps.pure none).bind (found_alike ih)) w hw
    | some b =>
      cases b with
      | value x => exact ((Keeps.pure (some x)).bind (found_alike ih)) w hw
      | promise p => exact (((hforce held p).map some).bind (found_alike ih)) w hw
      | missing => exact ((Keeps.fail _).bind (found_alike ih)) w hw

include hev hforce in
theorem callee_alike (held : List Handle) {function : Expr} {env : FrameId}
    (hfunction : J function env) :
    Alike I (callee ev held function env) (callee ev' held function env) := by
  cases function with
  | lookup name =>
    refine Alike.get_bind fun w hw => ?_
    refine ((findClosure_alike hforce held name _).bind fun found => ?_) w hw
    cases found with
    | some c => exact Keeps.pure _
    | none =>
      dsimp only
      cases Builtin.ofName? name with
      | some b => exact Keeps.pure _
      | none => exact Keeps.fail _
  | _ =>
    refine (hev held _ env hfunction).bind fun x => ?_
    cases x with
    | closure c => exact Keeps.pure _
    | _ => exact Keeps.fail _

theorem missing_keeps (held : List Handle) (args : List Expr) (env : FrameId) :
    Keeps I (missing held args env : Run ω μ Value) := by
  refine (Keeps.ofExcept _).bind fun name => ?_
  refine Alike.get_bind fun w hw => ?_
  cases hm : w.checker.isMissing? w.heap (w.roots held) name env with
  | none => exact Keeps.throw _ w hw
  | some r =>
    obtain ⟨⟨b, c⟩, h'⟩ := r
    have hheap : h' = w.heap := Checker.walk_heap hm
    subst hheap
    exact Alike.set_bind (I := I) (w := { w with checker := c }) hw (Keeps.pure _) w hw

include hev in
omit [Foreign ω] [Method μ] in
theorem onlyArgument_alike (held : List Handle) (b : Builtin) {args : List (Arg Expr)}
    {env : FrameId} (hargs : ∀ e ∈ args.filterMap Arg.expr?, J e env) :
    Alike I (onlyArgument ev held b args env) (onlyArgument ev' held b args env) := by
  unfold onlyArgument
  split
  · split
    · exact hev _ _ _ (hargs _ (by simp [*]))
    · exact Keeps.fail _
  · exact Keeps.fail _

include hev in
theorem callBuiltin_alike (held : List Handle) (b : Builtin) {args : List (Arg Expr)}
    {env : FrameId} (hargs : ∀ e ∈ args.filterMap Arg.expr?, J e env) :
    Alike I (callBuiltin ev held b args env) (callBuiltin ev' held b args env) := by
  cases b with
  | missing => exact missing_keeps held _ env
  | asCharacter =>
    refine (onlyArgument_alike hev held _ hargs).bind fun x => ?_
    refine Alike.get_bind fun w hw => ?_
    cases w.methods.asText x with
    | mk answer methods =>
      exact Alike.set_bind (w := { w with methods := methods }) hw (Keeps.ofExcept answer) w hw
  | force => exact onlyArgument_alike hev held _ hargs
  | isNull => exact (onlyArgument_alike hev held _ hargs).bind fun x => Keeps.pure _

include hev in
omit [Foreign ω] [Method μ] in
theorem subscripts_alike (held : List Handle) {env : FrameId} {ss : List (Option Expr)}
    (hss : ∀ e ∈ ss.filterMap id, J e env) :
    Alike I (subscripts ev held env ss) (subscripts ev' held env ss) := by
  induction ss generalizing held with
  | nil => exact Keeps.pure []
  | cons s rest ih =>
    cases s with
    | none => exact (ih held (by simpa using hss)).bind fun ss => Keeps.pure _
    | some e =>
      simp only [List.filterMap_cons, id_eq, List.forall_mem_cons] at hss
      exact (hev held e env hss.1).bind fun x =>
        (ih (x.handles ++ held) hss.2).bind fun ss => Keeps.pure _

include hev in
omit [Foreign ω] [Method μ] in
theorem block_alike (held : List Handle) {env : FrameId} (last : Value) {es : List Expr}
    (hes : ∀ e ∈ es, J e env) :
    Alike I (block ev held env last es) (block ev' held env last es) := by
  induction es generalizing last with
  | nil => exact Keeps.pure last
  | cons e rest ih =>
    rw [List.forall_mem_cons] at hes
    exact (hev (last.handles ++ held) e env hes.1).bind fun x => ih x hes.2

include hev in
omit [Method μ] in
theorem index_alike (held : List Handle) {env : FrameId} {target : Expr}
    {ss : List (Option Expr)} (mode : Mode) (htarget : J target env)
    (hss : ∀ e ∈ ss.filterMap id, J e env) :
    Alike I (index ev held env target ss mode) (index ev' held env target ss mode) := by
  refine (hev held target env htarget).bind fun x => ?_
  refine (subscripts_alike hev (x.handles ++ held) hss).bind fun ss => ?_
  refine Alike.get_bind fun w hw => ?_
  cases w.extractor.apply w.records x ss mode true with
  | mk answer extractor =>
    exact Alike.set_bind (w := { w with extractor := extractor }) hw (Keeps.ofExcept answer) w hw

include hev hforce in
theorem assignIndex_alike [Memory] (held : List Handle) {env : FrameId} {name : String}
    {ss : List (Option Expr)} (mode : Mode) {value : Expr} (hvalue : J value env)
    (hss : ∀ e ∈ ss.filterMap id, J e env)
    (hassign : ∀ (h : Heap) (x : Value), I h → I (h.define env name (.value x))) :
    Alike I (assignIndex ev held env name ss mode value)
      (assignIndex ev' held env name ss mode value) := by
  refine (hev held value env hvalue).bind fun value => ?_
  refine (subscripts_alike hev (value.handles ++ held) hss).bind fun ss => ?_
  refine (lookup_alike hforce _ name env).bind fun x => ?_
  refine Alike.get_bind fun w hw => ?_
  cases w.replacer.apply w.records x ss value mode with
  | mk answer replacer =>
    refine Alike.set_bind (w := { w with replacer := replacer }) hw ?_ w hw
    exact (Keeps.ofNoted answer).bind fun r => fun w hw => ⟨rfl, hassign _ r.1 hw⟩

end Parts

section Where

variable {σ : Type} {I : σ → Heap → Prop} {J : σ → Expr → FrameId → Prop}

omit [Foreign ω] [Method μ] in
theorem callClosure_alike_where (hI : Heap.KeptWhere I J)
    (hev : ∀ s held e env, J s e env → Alike (I s) (ev held e env) (ev' held e env))
    (s : σ) (held : List Handle) (c : Closure) {function : Expr} {args : List (Arg Expr)}
    {caller : FrameId} (hcall : J s (.call function args) caller) :
    Alike (I s) (callClosure ev held c args caller)
      (callClosure ev' held c args caller) := by
  refine Alike.get_bind fun w hw => ?_
  cases hf : w.heap.functions[c.function]? with
  | none => exact Keeps.fail _ w hw
  | some f =>
    dsimp only
    rw [get_bind, get_bind, after_get_bind]
    cases hb : Call.bindArguments f c args caller w.heap with
    | error e => exact ⟨rfl, hw⟩
    | ok r =>
      obtain ⟨callee, h'⟩ := r
      obtain ⟨t, hh', hbody, hback⟩ := hI.call hw hcall hf hb
      have hrun := hev t (.frame callee :: .function c.function :: held) f.body callee hbody
        { w with heap := h' } hh'
      exact ⟨hrun.1, hback hrun.2⟩

/-- Evaluating an expression with two evaluators that do the same on heaps with a property that
is kept where the expression is evaluated. -/
theorem step_alike_where [Memory] (hI : Heap.KeptWhere I J)
    (hev : ∀ s held e env, J s e env → Alike (I s) (ev held e env) (ev' held e env))
    (hforce : ∀ s held id, Alike (I s) (force ev held id) (force ev' held id))
    (s : σ) (held : List Handle) (e : Expr) (env : FrameId) (he : J s e env) :
    Alike (I s) (step ev held e env) (step ev' held e env) := by
  have hparts : ∀ x ∈ e.parts, J s x env := fun x hx => hI.part he hx
  cases e with
  | constant x => exact Keeps.pure x
  | lookup name => exact lookup_alike (hforce s) held name env
  | call function args =>
    obtain ⟨hfunction, hargs⟩ := List.forall_mem_cons.1 hparts
    refine (callee_alike (hev s) (hforce s) held hfunction).bind fun c => ?_
    cases c with
    | closure c => exact callClosure_alike_where hI hev s held c he
    | builtin b => exact callBuiltin_alike (hev s) held b hargs
  | missing args => exact missing_keeps held args env
  | index target ss mode =>
    obtain ⟨htarget, hss⟩ := List.forall_mem_cons.1 hparts
    exact index_alike (hev s) held mode htarget hss
  | assign name value =>
    refine (hev s held value env (hparts value (List.mem_singleton_self value))).bind fun x => ?_
    exact fun w hw => ⟨rfl, hI.assign x hw he rfl⟩
  | assignIndex name ss mode value =>
    obtain ⟨hvalue, hss⟩ := List.forall_mem_cons.1 hparts
    exact assignIndex_alike (hev s) (hforce s) held mode hvalue hss
      fun h x hh => hI.assign x hh he rfl
  | function f => exact Alike.get_bind fun w hw => Keeps.pure _ w hw
  | block body => exact block_alike (hev s) held .null hparts

end Where

/-- Evaluating an expression with two evaluators that do the same on heaps with a property that
assignments and calls keep. -/
theorem step_alike [Memory] {I : Heap → Prop} (hI : Heap.Kept I)
    (hev : ∀ held e env, Alike I (ev held e env) (ev' held e env))
    (hforce : ∀ held id, Alike I (force ev held id) (force ev' held id))
    (held : List Handle) (e : Expr) (env : FrameId) :
    Alike I (step ev held e env) (step ev' held e env) :=
  step_alike_where hI.keptWhere (fun _ held e env _ => hev held e env) (fun _ => hforce) () held e
    env trivial

end Eval

end LazyVectors

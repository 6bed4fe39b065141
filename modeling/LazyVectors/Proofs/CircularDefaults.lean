import LazyVectors.Proofs.MissingArguments
import LazyVectors.Proofs.Reachability
/-!
Defaults that lead back to themselves. Every promise on the way round is marked before the next
is forced, so the way ends at the first mark that is met again, and the marks are taken back
from there.
-/

set_option autoImplicit false

namespace LazyVectors

namespace Heap

variable {h h' : Heap} {callee : FrameId} {names : List String} {name : String} {p : PromiseId}

/-- The name is bound as a call binds a formal that was left out and has another name as its
default: to a promise that was not forced yet. -/
def Omitted (h : Heap) (callee : FrameId) (name default : String) : Prop :=
  ∃ p, h.local? callee name = some (.promise p) ∧
    h.promises[p]? = some (.default (.lookup default) callee)

theorem omitted_of_bindArguments {f : Function} {c : Closure} {args : List (Arg Expr)}
    {caller : FrameId} {supplied : List (Option Expr)} {default : String}
    (hb : Call.bindArguments f c args caller h = .ok (callee, h'))
    (hnames : (f.formals.map (·.name)).Nodup) (hm : Call.matchArguments f args = .ok supplied)
    (hx : (⟨name, some (.lookup default)⟩, none) ∈ f.formals.zip supplied) :
    h'.Omitted callee name default := by
  obtain ⟨supplied', hm', rfl, rfl⟩ := Call.bindArguments_eq_ok.1 hb
  cases hm.symm.trans hm'
  have hnames' := hnames.sublist (Call.sublist_names_zip f.formals supplied)
  have hcallee : h.frames.size < (h.newChild c.frame (.call c.function)).2.frames.size :=
    (size_frames_pushFrame h _).symm ▸ Nat.lt_succ_self _
  exact Call.local?_bindFormals hcallee hnames' hx rfl

/-- Each of the names is bound to a promise without a value, which stands for one of the names. -/
def Circling (h : Heap) (callee : FrameId) (names : List String) : Prop :=
  ∀ name ∈ names, ∃ p r next, h.local? callee name = some (.promise p) ∧
    h.promises[p]? = some r ∧ r.value = none ∧ r.expr = .lookup next ∧ next ∈ names ∧
    r.frame = some callee

theorem circling_of_omitted {last : String} (hlast : last ∈ names)
    (homitted : ∀ d ∈ names.zip (names.tail ++ [last]), h.Omitted callee d.1 d.2) :
    h.Circling callee names := by
  intro name hname
  have hlen : names.length ≤ (names.tail ++ [last]).length := by
    simp only [List.length_append, List.length_tail, List.length_singleton]
    omega
  rw [← List.map_fst_zip hlen] at hname
  obtain ⟨⟨name, next⟩, hd, rfl⟩ := List.mem_map.1 hname
  obtain ⟨p, hb, hr⟩ := homitted _ hd
  refine ⟨p, _, next, hb, hr, rfl, rfl, ?_, rfl⟩
  rcases List.mem_append.1 (List.of_mem_zip hd).2 with htail | hlast'
  · exact List.mem_of_mem_tail htail
  · exact List.mem_singleton.1 hlast' ▸ hlast

def InProgress (h : Heap) (callee : FrameId) (name : String) : Prop :=
  ∃ p r, h.local? callee name = some (.promise p) ∧ h.promises[p]? = some r ∧
    r.state = .underEvaluation

theorem Circling.setState (hc : h.Circling callee names) (p : PromiseId) (s : PromiseState) :
    (h.setState p s).Circling callee names := by
  intro name hname
  obtain ⟨q, r, next, hb, hr, hv, hexpr, hnext, hframe⟩ := hc name hname
  exact ⟨q, _, next, hb, getElem?_setState_of_some hr p s, hv, hexpr, hnext, hframe⟩

theorem InProgress.setState (hu : h.InProgress callee name) (p : PromiseId) :
    (h.setState p .underEvaluation).InProgress callee name := by
  obtain ⟨q, r, hb, hr, hu⟩ := hu
  exact ⟨q, _, hb, getElem?_setState_of_some hr p _, by simp [hu]⟩

/-- With one more promise marked there is one name less that is not under evaluation. -/
theorem covered_mark {left : List String} {r : Promise}
    (hleft : ∀ other ∈ names, other ∈ left ∨ h.InProgress callee other)
    (hb : h.local? callee name = some (.promise p)) (hr : h.promises[p]? = some r) :
    ∀ other ∈ names, other ∈ left.erase name ∨
      (h.setState p .underEvaluation).InProgress callee other := by
  intro other hother
  by_cases hsame : other = name
  · subst hsame
    exact .inr ⟨p, _, hb, getElem?_setState_of_some hr p _, by simp⟩
  · exact (hleft other hother).imp (List.mem_erase_of_ne hsame).2 (·.setState p)

end Heap

namespace Eval

variable {ω μ : Type} [Foreign ω] [Method μ] {w : World ω μ} {callee : FrameId}
  {names : List String} {name : String}

theorem lookup_of_inProgress (hc : w.heap.Circling callee names) (hname : name ∈ names)
    (hu : w.heap.InProgress callee name) (ev : Evaluator ω μ) (held : List Handle) :
    lookup ev held name callee w = .error (.failure .recursiveForce) w := by
  obtain ⟨p, r, next, hb, hr, hv, -⟩ := hc name hname
  obtain ⟨q, r', hb', hr', hu⟩ := hu
  cases hb.symm.trans hb'
  cases hr.symm.trans hr'
  rw [lookup_of_promise hb, force_of_underEvaluation hr hv hu]

theorem lookup_of_circling [Memory] {left : List String} {n : Nat} {held : List Handle}
    (hn : left.length ≤ n) (hc : w.heap.Circling callee names)
    (hleft : ∀ other ∈ names, other ∈ left ∨ w.heap.InProgress callee other)
    (halive : w.heap.alive (w.roots held) callee = true) (hname : name ∈ names) :
    lookup (eval n) held name callee w = .error (.failure .recursiveForce) w := by
  -- every step marks one of the names that are left, until none is
  induction n generalizing left w held name with
  | zero =>
    obtain rfl := List.eq_nil_of_length_eq_zero (Nat.le_zero.1 hn)
    exact lookup_of_inProgress hc hname ((hleft name hname).resolve_left List.not_mem_nil) _ _
  | succ n ih =>
    rcases hleft name hname with hmem | hprogress
    swap
    · exact lookup_of_inProgress hc hname hprogress _ _
    obtain ⟨p, r, next, hb, hr, hv, hexpr, hnext, hframe⟩ := hc name hname
    by_cases hu : r.state = .underEvaluation
    · exact lookup_of_inProgress hc hname ⟨p, r, hb, hr, hu⟩ _ _
    have hf : w.heap.frameOf? (.promise p :: w.roots held) r = some callee := by
      have hheld : w.heap.alive (.promise p :: w.roots held) callee = true :=
        Heap.alive_mono halive (List.subset_cons_self _ _)
      simp [Heap.frameOf?, hframe, hheld]
    have hlen : (left.erase name).length ≤ n := by
      rw [List.length_erase_of_mem hmem]
      omega
    -- the promise holds its frame while it is evaluated
    have halive' : (w.entered p).heap.alive
        ((w.entered p).roots (.promise p :: .frame callee :: held)) callee = true :=
      Heap.alive_of_leadsTo (Heap.leadsTo_of_mem (by simp [World.roots]))
    have hrest := ih hlen (hc.setState p _) (Heap.covered_mark hleft hb hr) halive' hnext
    have hback : { w.entered p with heap := (w.entered p).heap.setState p r.state } = w := by
      simp only [World.entered, Heap.setState_setState hr]
    calc lookup (eval (n + 1)) held name callee w
        = leave p r.state (lookup (eval n) (.promise p :: .frame callee :: held) next
            callee (w.entered p)) := by
          rw [lookup_of_promise hb, force_entered hr hv hu hf, hexpr]
          rfl
      _ = .error (.failure .recursiveForce) w := by rw [hrest, leave, hback]

end Eval

/-- Let names be bound by a call that left them all out, with the next one as the default of each
and an earlier one, or itself, as that of the last. Looking up any of them in the frame of the call,
while that is alive, fails because a promise is forced again, and expressions nest no deeper than
there are names. The world is as it was: all the promises stand for their defaults and have no
value, and a second look fails as well. -/
theorem circular_defaults_fail {ω μ : Type} [Foreign ω] [Method μ] [Memory]
    (before : List String) (first : String) (round : List String) :
    let names := before ++ first :: round
    let defaults := names.zip (names.tail ++ [first])
    (∀ (f : Function) (c : Closure) (args : List (Arg Expr)) (caller callee : FrameId)
      (h h' : Heap) (supplied : List (Option Expr)),
      Call.bindArguments f c args caller h = .ok (callee, h') → (f.formals.map (·.name)).Nodup →
      Call.matchArguments f args = .ok supplied →
      (∀ d ∈ defaults, (⟨d.1, some (.lookup d.2)⟩, none) ∈ f.formals.zip supplied) →
        ∀ d ∈ defaults, h'.Omitted callee d.1 d.2) ∧
    ∀ (w : World ω μ) (callee : FrameId) (held : List Handle) (n : Nat),
      (∀ d ∈ defaults, w.heap.Omitted callee d.1 d.2) →
      w.heap.alive (w.roots held) callee = true → names.length ≤ n →
        let look := fun name => Eval.lookup (eval n) held name callee
        ∀ name ∈ names,
          look name w = .error (.failure .recursiveForce) w ∧
          (∀ d ∈ defaults, ((look name).after w).heap.Omitted callee d.1 d.2) ∧
          ∀ other ∈ names, look other ((look name).after w) =
            .error (.failure .recursiveForce) ((look name).after w) := by
  intro names defaults
  constructor
  · intro f c args caller callee h h' supplied hb hnames hm hd d hmem
    exact Heap.omitted_of_bindArguments hb hnames hm (hd d hmem)
  · intro w callee held n homitted halive hn look name hname
    have hcircling := Heap.circling_of_omitted (by simp [names]) homitted
    have hlook : ∀ name ∈ names, look name w = .error (.failure .recursiveForce) w :=
      fun _ hname => Eval.lookup_of_circling hn hcircling (fun _ hmem => .inl hmem) halive
        hname
    rw [Run.after_error (hlook name hname)]
    exact ⟨hlook name hname, homitted, hlook⟩

def leadingRound : Function :=
  ⟨some "f", [⟨"y", some (.lookup "a")⟩, ⟨"k", none⟩, ⟨"a", some (.lookup "b")⟩,
    ⟨"b", some (.lookup "a")⟩], .lookup "y"⟩

def calledRound : World Records PlainMethod :=
  { World.ofSizes [] 5 5 3 with
    heap := {
      frames := #[⟨.top 0, none, []⟩, ⟨.call 0, some 0, [("y", .promise 0), ("k", .promise 1),
        ("a", .promise 2), ("b", .promise 3)]⟩]
      promises := #[.default (.lookup "a") 1, .evaluated (.constant .null) .null,
        .default (.lookup "b") 1, .default (.lookup "a") 1]
      functions := #[leadingRound] } }

section

attribute [local instance] Memory.unbounded

theorem circular_defaults_fail_leadingRound :
    Call.bindArguments leadingRound ⟨0, 0, some "f"⟩ [.named "k" (.constant .null)] 0
      (Heap.newTop { functions := #[leadingRound] }).2 = .ok (1, calledRound.heap) ∧
    Eval.lookup (eval 3) [.frame 1] "y" 1 calledRound =
      .error (.failure .recursiveForce) calledRound := by
  have hcall : Call.bindArguments leadingRound ⟨0, 0, some "f"⟩ [.named "k" (.constant .null)] 0
      (Heap.newTop { functions := #[leadingRound] }).2 = .ok (1, calledRound.heap) := rfl
  obtain ⟨homitted, hlook⟩ :=
    circular_defaults_fail (ω := Records) (μ := PlainMethod) ["y"] "a" ["b"]
  have homitted := homitted leadingRound _ _ _ _ _ _ [none, some (.constant .null), none, none]
    hcall (by decide) rfl (by simp [leadingRound])
  exact ⟨hcall, (hlook calledRound 1 [.frame 1] 3 homitted rfl (by decide) "y" (by simp)).1⟩

end

end LazyVectors

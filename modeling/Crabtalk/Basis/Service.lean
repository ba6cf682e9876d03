import Crabtalk.Basis.Footprint
import Crabtalk.Basis.Simulation

/-!
# A service that dies

A process serves requests and may die in one of them, between two operations
or with a part of an operation done. An operation may also fail, with nothing
or a part of it done, and the request goes on. Where every request keeps, at
each of its operations, a state that accounts for it or for nothing, a life of
the service is a life of what it stands for: each answer is one the abstract
state gives, an answer of a request without failures is one it gives where
nothing fails, and a request in which the process died was done or was not.
-/

namespace Basis

namespace Prog

section
variable {ω : Type} {ρ : ω → Type} {ε σ α β : Type}

/-- The runs in which operations may fail. `torn` says what a part of an operation does. -/
inductive Falters (h : (o : ω) → EStateM ε σ (ρ o)) (torn : ω → σ → σ → Prop) :
    Prog ω ρ ε α → σ → Except ε α → σ → Prop
  | done (a : α) (s : σ) : Falters h torn (.done a) s (.ok a) s
  | fail (e : ε) (s : σ) : Falters h torn (.fail e) s (.error e) s
  | step {p p' : Prog ω ρ ε α} {s s' s'' : σ} {r : Except ε α} :
      Step True h p s p' s' → Falters h torn p' s' r s'' → Falters h torn p s r s''
  | part {o : ω} {k : Except ε (ρ o) → Prog ω ρ ε α} {s s' s'' : σ} {r : Except ε α} (e : ε) :
      torn o s s' → Falters h torn (k (.error e)) s' r s'' → Falters h torn (.call o k) s r s''

inductive Dies (h : (o : ω) → EStateM ε σ (ρ o)) (torn : ω → σ → σ → Prop) :
    Prog ω ρ ε α → σ → σ → Prop
  | here (p : Prog ω ρ ε α) (s : σ) : Dies h torn p s s
  | torn {o : ω} {k : Except ε (ρ o) → Prog ω ρ ε α} {s s' : σ} :
      torn o s s' → Dies h torn (.call o k) s s'
  | step {p p' : Prog ω ρ ε α} {s s' s'' : σ} :
      Step True h p s p' s' → Dies h torn p' s' s'' → Dies h torn p s s''
  | part {o : ω} {k : Except ε (ρ o) → Prog ω ρ ε α} {s s' s'' : σ} (e : ε) :
      torn o s s' → Dies h torn (k (.error e)) s' s'' → Dies h torn (.call o k) s s''

/-- Where an operation can be done in part, its failure is the program's. -/
def Bails (torn : ω → σ → σ → Prop) : Prog ω ρ ε α → Prop
  | done _ => True
  | fail _ => True
  | call o k => (∀ s s', torn o s s' → ∀ e, ∃ e', k (.error e) = fail e') ∧ ∀ r, Bails torn (k r)

variable {h : (o : ω) → EStateM ε σ (ρ o)} {torn : ω → σ → σ → Prop} {P : ω → Prop} {I : σ → Prop}
  {Q : α → σ → Prop} {E : ε → σ → Prop} {p p' : Prog ω ρ ε α} {r : Except ε α} {s s' : σ}

theorem Bails.whole (h : ∀ o s s', ¬ torn o s s') (p : Prog ω ρ ε α) : Bails torn p := by
  induction p with
  | done a => trivial
  | fail e => trivial
  | call o k ih => exact ⟨fun s s' ht => absurd ht (h o s s'), ih⟩

theorem Bails.perform (o : ω) : Bails (ρ := ρ) (ε := ε) torn (perform o) := by
  refine ⟨fun _ _ _ e => ⟨e, rfl⟩, fun r => ?_⟩
  cases r with
  | ok a => trivial
  | error e => trivial

theorem Bails.bind {f : α → Prog ω ρ ε β} (hp : Bails torn p) (hf : ∀ a, Bails torn (f a)) :
    Bails torn (p >>= f) := by
  induction p with
  | done a => exact hf a
  | fail e => trivial
  | call o k ih =>
    refine ⟨fun s s' ht e => ?_, fun r => ih r (hp.2 r)⟩
    obtain ⟨e', he⟩ := hp.1 s s' ht e
    exact ⟨e', by show (k (.error e)).bind f = _; rw [he]; rfl⟩

theorem Bails.attempt {o : ω} (ho : ∀ s s', ¬ torn o s s') :
    Bails (ρ := ρ) (ε := ε) torn (Prog.perform o).attempt := by
  refine ⟨fun s s' ht => absurd ht (ho s s'), fun r => ?_⟩
  cases r with
  | ok a => trivial
  | error e => trivial

theorem Bails.embed {ω' : Type} {ρ' : ω' → Type} {τ : Type} {torn' : ω' → τ → τ → Prop} {f : ω → ω'}
    {back : ∀ o, ρ' (f o) → ρ o} {p : Prog ω ρ ε α} (hp : Bails (fun o => torn' (f o)) p) :
    Bails torn' (Prog.embed f back p) := by
  induction p with
  | done a => trivial
  | fail e => trivial
  | call o k ih =>
    refine ⟨fun s s' ht e => ?_, fun r => ih _ (hp.2 _)⟩
    obtain ⟨e', he⟩ := hp.1 s s' ht e
    exact ⟨e', by show Prog.embed f back (k (.error e)) = _; rw [he]; rfl⟩

theorem Bails.step (hp : Bails torn p) (hs : Step True h p s p' s') : Bails torn p' := by
  cases hs with
  | ok _ => exact hp.2 _
  | error _ => exact hp.2 _
  | fault e _ => exact hp.2 _

theorem Footprint.all (p : Prog ω ρ ε α) : Footprint h (fun _ => True) p := by
  induction p with
  | done a => trivial
  | fail e => trivial
  | call o k ih => exact ⟨trivial, fun _ a _ _ => ih (.ok a), fun e => ih (.error e)⟩

theorem Footprint.step {faults : Prop} (hp : Footprint h P p) (hs : Step faults h p s p' s') :
    Footprint h P p' := by
  cases hs with
  | ok ho => exact hp.2.1 _ _ _ ho
  | error _ => exact hp.2.2 _
  | fault e _ => exact hp.2.2 e

/-- A failure is answered for where it strikes, and a part of the operation changes nothing about it. -/
theorem during.falters (hd : during True h I p Q E s) (hb : Bails torn p) (hp : Footprint h P p)
    (hE : ∀ o e s s', P o → E e s → torn o s s' → E e s') (hr : Falters h torn p s r s') :
    ends Q E r s' := by
  induction hr with
  | done a s => exact hd
  | fail e s => exact hd
  | step hs _ ih => exact ih (hd.step hs) (hb.step hs) (hp.step hs)
  | @part o k s s₁ s₂ r e ht hr ih =>
    obtain ⟨e', he⟩ := hb.1 s s₁ ht e
    have hend := hd.2.2 trivial e
    rw [he] at hend ih
    exact ih (hE o e' s s₁ hp.1 hend ht) trivial trivial

theorem during.dies (hd : during True h I p (fun _ => I) (fun _ => I) s) (hb : Bails torn p)
    (hp : Footprint h P p) (htorn : ∀ o s s', P o → I s → torn o s s' → I s')
    (hs : Dies h torn p s s') : I s' := by
  induction hs with
  | here p s => exact hd.held (fun _ hi => hi) fun _ hi => hi
  | torn ht => exact htorn _ _ _ hp.1 hd.1 ht
  | step hstep _ ih => exact ih (hd.step hstep) (hb.step hstep) (hp.step hstep)
  | @part o k s s₁ s₂ e ht _ ih =>
    obtain ⟨e', he⟩ := hb.1 s s₁ ht e
    rw [he] at ih
    exact ih (htorn o s s₁ hp.1 hd.1 ht) trivial trivial

end

end Prog

/-! ## Requests -/

universe u

/-- A request that was answered, with no operation of it failing or with some, or in which the
process died. -/
inductive Trial (κ : Type u) (ρ : Type)
  | served (q : κ) (r : ρ)
  | faulted (q : κ) (r : ρ)
  | died (q : κ)

section
variable {ω : Type} {ρ : ω → Type} {ε σ τ α : Type} {κ : Type u} (h : (o : ω) → EStateM ε σ (ρ o))
  (torn : ω → σ → σ → Prop) (exec : κ → Prog ω ρ ε α) (spec : Prop → τ → κ → Except ε α → τ → Prop)

inductive Attends : σ → Trial κ (Except ε α) → σ → Prop
  | served {q : κ} {r : Except ε α} {s s' : σ} :
      Prog.Runs False h (exec q) s r s' → Attends s (.served q r) s'
  | faulted {q : κ} {r : Except ε α} {s s' : σ} :
      Prog.Falters h torn (exec q) s r s' → Attends s (.faulted q r) s'
  | died {q : κ} {s s' : σ} : Prog.Dies h torn (exec q) s s' → Attends s (.died q) s'

inductive Accounts : τ → Trial κ (Except ε α) → τ → Prop
  | served {q : κ} {r : Except ε α} {t t' : τ} : spec False t q r t' → Accounts t (.served q r) t'
  | faulted {q : κ} {r : Except ε α} {t t' : τ} : spec True t q r t' → Accounts t (.faulted q r) t'
  | undone (q : κ) (t : τ) : Accounts t (.died q) t
  | done {q : κ} {r : Except ε α} {t t' : τ} : spec True t q r t' → Accounts t (.died q) t'

/-- What a state accounts for in the middle of a request: nothing, or all of it. -/
def Midway (F : Prop) (R : σ → τ → Prop) (t : τ) (q : κ) (s : σ) : Prop :=
  R s t ∨ ∃ r t', spec F t q r t' ∧ R s t'

structure Serves (R : σ → τ → Prop) (P : κ → ω → Prop) : Prop where
  footprint : ∀ q, Prog.Footprint h (P q) (exec q)
  bails : ∀ q, Prog.Bails torn (exec q)
  torn : ∀ {q o s s' t}, P q o → R s t → torn o s s' → R s' t
  request : ∀ (F : Prop) {q s t}, R s t →
    Prog.during F h (Midway spec F R t q) (exec q)
    (fun a s' => ∃ t', spec F t q (.ok a) t' ∧ R s' t')
      (fun e s' => ∃ t', spec F t q (.error e) t' ∧ R s' t') s

variable {h torn exec spec} {R : σ → τ → Prop} {P : κ → ω → Prop}

theorem exists_of_ends {F : Prop} {t : τ} {q : κ} {r : Except ε α} {s' : σ}
    (hend : Prog.ends (fun a s' => ∃ t', spec F t q (.ok a) t' ∧ R s' t')
      (fun e s' => ∃ t', spec F t q (.error e) t' ∧ R s' t') r s') :
    ∃ t', spec F t q r t' ∧ R s' t' := by
  cases r with
  | ok a => exact hend
  | error e => exact hend

theorem Serves.attends (hs : Serves h torn exec spec R P) {s s' : σ} {t : τ}
    {e : Trial κ (Except ε α)}
    (hst : R s t) (he : Attends h torn exec s e s') : ∃ t', Accounts spec t e t' ∧ R s' t' := by
  cases he with
  | @served q r _ _ hr =>
    obtain ⟨t', ht, hst'⟩ := exists_of_ends ((hs.request False hst).wp.runs hr)
    exact ⟨t', .served ht, hst'⟩
  | @faulted q r _ _ hr =>
    have hend := (hs.request True hst).falters (hs.bails q) (hs.footprint q) ?_ hr
    · obtain ⟨t', ht, hst'⟩ := exists_of_ends hend
      exact ⟨t', .faulted ht, hst'⟩
    · rintro o e s₁ s₂ ho ⟨t', hspec, hst₁⟩ ht
      exact ⟨t', hspec, hs.torn ho hst₁ ht⟩
  | @died q _ _ hd =>
    have hmid : Prog.during True h (Midway spec True R t q) (exec q)
        (fun _ => Midway spec True R t q) (fun _ => Midway spec True R t q) s := by
      refine (hs.request True hst).mono (fun _ hm => hm) (fun a s' ha => ?_) fun e s' he => ?_
      · obtain ⟨t', ht, hst'⟩ := ha
        exact .inr ⟨_, t', ht, hst'⟩
      · obtain ⟨t', ht, hst'⟩ := he
        exact .inr ⟨_, t', ht, hst'⟩
    have hend := hmid.dies (hs.bails q) (hs.footprint q) (fun o s₁ s₂ ho hm ht => ?_) hd
    · rcases hend with hst' | ⟨r, t', ht, hst'⟩
      · exact ⟨t, .undone q t, hst'⟩
      · exact ⟨t', .done ht, hst'⟩
    · rcases hm with hst₁ | ⟨r, t', hspec, hst₁⟩
      · exact .inl (hs.torn ho hst₁ ht)
      · exact .inr ⟨r, t', hspec, hs.torn ho hst₁ ht⟩

/-- A life of the service is a life of what it stands for. -/
theorem Serves.course (hs : Serves h torn exec spec R P) {s s' : σ} {t : τ}
    {es : List (Trial κ (Except ε α))}
    (hc : Course (Attends h torn exec) s es s') (hst : R s t) :
    ∃ t', Course (Accounts spec) t es t' ∧ R s' t' := by
  induction hc generalizing t with
  | nil s => exact ⟨t, .nil t, hst⟩
  | cons he _ ih =>
    obtain ⟨t₁, ht, hst₁⟩ := hs.attends hst he
    obtain ⟨t', ht', hst'⟩ := ih hst₁
    exact ⟨t', .cons ht ht', hst'⟩

end

/-! ## One request after the other -/

section
variable {ω ω' : Type} {ρ : ω → Type} {ρ' : ω' → Type} {ε ε' σ σ' τ α κ : Type}

def collect (exec : κ → Prog ω ρ ε α) : List κ → Prog ω ρ ε (List α)
  | [] => pure []
  | q :: qs => do
    let a ← exec q
    let rest ← collect exec qs
    return a :: rest

variable {h : (o : ω) → EStateM ε σ (ρ o)} {h' : (o : ω') → EStateM ε' σ' (ρ' o)}
  {exec : κ → Prog ω ρ ε α} {exec' : κ → Prog ω' ρ' ε' α}
  {answer : τ → κ → α} {change : τ → κ → τ} {R : σ → τ → Prop} {R' : σ' → τ → Prop}
    {P : τ → κ → Prop}

def answers (answer : τ → κ → α) (change : τ → κ → τ) : τ → List κ → List α
  | _, [] => []
  | t, q :: qs => answer t q :: answers answer change (change t q) qs

/-- Each request is one the state it comes in admits. -/
def Along (change : τ → κ → τ) (P : τ → κ → Prop) : τ → List κ → Prop
  | _, [] => True
  | t, q :: qs => P t q ∧ Along change P (change t q) qs

theorem Along.of_forall {qs : List κ} (hP : ∀ q ∈ qs, ∀ t, P t q) (t : τ) :
    Along change P t qs := by
  induction qs generalizing t with
  | nil => trivial
  | cons q qs ih => exact ⟨hP q List.mem_cons_self t,
      ih (fun q' hq' => hP q' (List.mem_cons_of_mem _ hq')) _⟩

/-- The requests are answered as the abstract state says. -/
def Obeys (h : (o : ω) → EStateM ε σ (ρ o)) (exec : κ → Prog ω ρ ε α) (answer : τ → κ → α)
    (change : τ → κ → τ) (R : σ → τ → Prop)
    (P : τ → κ → Prop) : Prop :=
  ∀ q s t, P t q → R s t → Prog.wp False h (exec q) (fun a s' => a = answer t q ∧ R s' (change t q))
    (fun _ _ => False) s

theorem Obeys.collect (hexec : Obeys h exec answer change R P) {qs : List κ} {s : σ} {t : τ}
    (hqs : Along change P t qs) (hst : R s t) :
    Prog.wp False h (collect exec qs) (fun as s' => as = answers answer change t qs ∧
      R s' (qs.foldl change t)) (fun _ _ => False) s := by
  induction qs generalizing s t with
  | nil => exact ⟨rfl, hst⟩
  | cons q qs ih =>
    unfold Basis.collect
    rw [Prog.wp_bind]
    refine (hexec q s t hqs.1 hst).mono (fun a s₁ ha => ?_) fun _ _ he => he
    obtain ⟨rfl, hst₁⟩ := ha
    rw [Prog.wp_bind]
    refine (ih hqs.2 hst₁).mono (fun as s₂ has => ?_) fun _ _ he => he
    obtain ⟨rfl, hst₂⟩ := has
    exact ⟨rfl, hst₂⟩

/-- Services that stand for the same thing cannot be told apart by their answers. -/
theorem Obeys.alike (hexec : Obeys h exec answer change R P)
    (hexec' : Obeys h' exec' answer change R' P) {qs : List κ} {s : σ} {s' : σ'}
    {t : τ} (hqs : Along change P t qs) (hst : R s t) (hst' : R' s' t) :
    ∃ as s₁ s₁', Prog.interp h (Basis.collect exec qs) s = .ok as s₁ ∧
    Prog.interp h' (Basis.collect exec' qs) s' = .ok as s₁' := by
  obtain ⟨as, s₁, hs, rfl, -⟩ := (hexec.collect hqs hst).answers
  obtain ⟨as', s₁', hs', rfl, -⟩ := (hexec'.collect hqs hst').answers
  exact ⟨_, s₁, s₁', hs, hs'⟩

end

end Basis

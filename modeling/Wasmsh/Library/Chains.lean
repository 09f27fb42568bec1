import Mathlib.Data.List.Basic

/-!
# Left-associative chains

A parser that computes while it reads: it takes tokens and a state and returns a value, the
tokens that are left and the state after it.  One level of binary operators reads an operand
and then, as long as an operator of the level follows, the operator and the next operand.

A parser may lose its way, after which nothing is known of what it returns but that its state
is `bad`: a state that everything read later keeps bad, as long as the tokens are `ok`.  For a
parser that cannot lose its way no state is bad.
-/

namespace Chains

variable {τ σ ν : Type}

/-- The value, the tokens that are left and the state. -/
abbrev Result (τ σ ν : Type) := ν × List τ × σ

abbrev Parser (τ σ ν : Type) := List τ → σ → Result τ σ ν

/-- What an operator does with the values of its operands. -/
abbrev Action (σ ν : Type) := ν → ν → σ → ν × σ

variable (op : τ → Option (Action σ ν)) (next : Parser τ σ ν)

/-- Operators and operands, as long as they follow; at most as many as the first argument. -/
def loop : Nat → ν → Parser τ σ ν
  | 0, v, ts, s => (v, ts, s)
  | _ + 1, v, [], s => (v, [], s)
  | n + 1, v, t :: ts, s =>
    match op t with
    | none => (v, t :: ts, s)
    | some act =>
      let operand := next ts s
      let applied := act v operand.1 operand.2.2
      loop n applied.1 operand.2.1 applied.2

/-- One level: an operand and what follows it. -/
def level : Parser τ σ ν := fun ts s =>
  let operand := next ts s
  loop op next operand.2.1.length operand.1 operand.2.1 operand.2.2

variable {op next}

theorem loop_stop {ts : List τ} (h : ∀ t ∈ ts.head?, op t = none) (n : Nat) (v : ν) (s : σ) :
    loop op next n v ts s = (v, ts, s) := by
  cases n with
  | zero => rfl
  | succ n =>
    cases ts with
    | nil => rfl
    | cons t ts =>
      have hop : op t = none := h t rfl
      rw [loop, hop]

theorem loop_step {t : τ} {act : Action σ ν} (h : op t = some act) (n : Nat) (v : ν)
    (ts : List τ) (s : σ) :
    loop op next (n + 1) v (t :: ts) s =
      loop op next n (act v (next ts s).1 (next ts s).2.2).1 (next ts s).2.1
        (act v (next ts s).1 (next ts s).2.2).2 := by
  rw [loop, h]

/-! ## Lost parsers -/

section

variable (ok : τ → Prop) (bad : σ → Prop)

/-- A parser takes its tokens from the front, and one that is lost stays lost. -/
structure Sane (parse : Parser τ σ ν) : Prop where
  suffix : ∀ ts s, (parse ts s).2.1 <:+ ts
  keeps : ∀ ts s, (∀ t ∈ ts, ok t) → bad s → bad (parse ts s).2.2

/-- An operator keeps a bad state bad. -/
def SaneOp (op : τ → Option (Action σ ν)) : Prop :=
  ∀ t act, op t = some act → ok t → ∀ v w s, bad s → bad (act v w s).2

/-- The result is the expected one, unless the parser is lost. -/
def Gives (r : Result τ σ ν) (v : ν) (rest : List τ) (s : σ) : Prop :=
  bad r.2.2 ∨ r = (v, rest, s)

/-- The tokens are read as a value, whatever follows them, if it may. -/
def Reads (follow : List τ → Prop) (parse : Parser τ σ ν) (ts : List τ) (s : σ) (v : ν)
    (s' : σ) : Prop :=
  ∀ rest, follow rest → (∀ t ∈ ts ++ rest, ok t) → Gives bad (parse (ts ++ rest) s) v rest s'

end

section

variable {ok : τ → Prop} {bad : σ → Prop}

theorem ok_of_suffix {ts us : List τ} (h : us <:+ ts) (hok : ∀ t ∈ ts, ok t) : ∀ t ∈ us, ok t :=
  fun t ht => hok t (h.subset ht)

theorem loop_sane (hnext : Sane ok bad next) (hop : SaneOp ok bad op) (n : Nat) (v : ν) :
    Sane ok bad (loop op next n v) := by
  induction n generalizing v with
  | zero => exact ⟨fun ts _ => List.suffix_refl ts, fun _ _ _ h => h⟩
  | succ n ih =>
    constructor
    · intro ts s
      cases ts with
      | nil => exact List.suffix_refl _
      | cons t ts =>
        cases hact : op t with
        | none =>
          simpa only [loop, hact] using List.suffix_refl (t :: ts)
        | some act =>
          rw [loop_step hact]
          exact ((ih _).suffix _ _).trans ((hnext.suffix ts s).trans (List.suffix_cons t ts))
    · intro ts s hok hbad
      cases ts with
      | nil => exact hbad
      | cons t ts =>
        cases hact : op t with
        | none =>
          rw [loop, hact]
          exact hbad
        | some act =>
          rw [loop_step hact]
          have hrest : ∀ t ∈ ts, ok t := fun t ht => hok t (.tail _ ht)
          apply (ih _).keeps _ _ (ok_of_suffix (hnext.suffix ts s) hrest)
          exact hop t act hact (hok t (.head _)) _ _ _ (hnext.keeps ts s hrest hbad)

theorem level_sane (hnext : Sane ok bad next) (hop : SaneOp ok bad op) :
    Sane ok bad (level op next) := by
  constructor
  · intro ts s
    exact ((loop_sane hnext hop _ _).suffix _ _).trans (hnext.suffix ts s)
  · intro ts s hok hbad
    exact (loop_sane hnext hop _ _).keeps _ _ (ok_of_suffix (hnext.suffix ts s) hok)
      (hnext.keeps ts s hok hbad)

/-! ## Chains -/

variable (ok bad op next) in
/-- The tokens are read as the beginning of a level; whatever operators follow are still to be
    read. -/
def Begins (follow : List τ → Prop) (ts : List τ) (s : σ) (v : ν) (s' : σ) : Prop :=
  ∀ rest, follow rest → (∀ t ∈ ts ++ rest, ok t) →
    bad (level op next (ts ++ rest) s).2.2 ∨
      ∃ n, rest.length ≤ n ∧ level op next (ts ++ rest) s = loop op next n v rest s'

variable {follow : List τ → Prop} {ts us : List τ} {s s' s'' : σ} {v w : ν}

/-- A level begins with an operand. -/
theorem begins_one (hnext : Sane ok bad next) (hop : SaneOp ok bad op)
    (h : Reads ok bad follow next ts s v s') : Begins op next ok bad follow ts s v s' := by
  intro rest hfollow hok
  rcases h rest hfollow hok with hbad | heq
  · left
    exact (loop_sane hnext hop _ _).keeps _ _ (ok_of_suffix (hnext.suffix _ _) hok) hbad
  · right
    refine ⟨rest.length, Nat.le_refl _, ?_⟩
    rw [level, heq]

/-- An operator and another operand. -/
theorem begins_more (hnext : Sane ok bad next) (hop : SaneOp ok bad op) {t : τ}
    {act : Action σ ν} (h : Begins op next ok bad follow ts s v s') (hact : op t = some act)
    (hfollow : ∀ rest, follow (t :: rest)) (hus : Reads ok bad follow next us s' w s'') :
    Begins op next ok bad follow (ts ++ t :: us) s (act v w s'').1 (act v w s'').2 := by
  intro rest hrest hok
  rw [List.append_assoc, List.cons_append] at hok ⊢
  have hok' : ∀ t ∈ us ++ rest, ok t := fun t ht =>
    hok t (List.mem_append_right _ (.tail _ ht))
  rcases h (t :: (us ++ rest)) (hfollow _) hok with hbad | ⟨n, hn, hlevel⟩
  · exact Or.inl hbad
  · cases n with
    | zero => cases hn
    | succ n =>
      rw [loop_step hact] at hlevel
      rcases hus rest hrest hok' with hbad | heq
      · left
        rw [hlevel]
        apply (loop_sane hnext hop _ _).keeps _ _ (ok_of_suffix (hnext.suffix _ _) hok')
        exact hop t act hact (hok t (by simp)) _ _ _ hbad
      · right
        refine ⟨n, ?_, ?_⟩
        · rw [List.length_cons, List.length_append] at hn
          omega
        · rw [hlevel, heq]

/-- The level ends where no operator of it follows. -/
theorem reads_of_begins (h : Begins op next ok bad follow ts s v s') :
    Reads ok bad (fun rest => follow rest ∧ ∀ t ∈ rest.head?, op t = none) (level op next) ts s v
      s' := by
  rintro rest ⟨hfollow, hstop⟩ hok
  rcases h rest hfollow hok with hbad | ⟨n, -, hlevel⟩
  · exact Or.inl hbad
  · right
    rw [hlevel, loop_stop hstop]

end

/-! ## Two parsers side by side -/

section

variable {τ' σ' ν' : Type} (f : τ → τ') (rel : σ → σ' → Prop)

/-- Two parsers take the same tokens, up to `f`, and keep their states related. -/
def Beside (parse : Parser τ σ ν) (parse' : Parser τ' σ' ν') : Prop :=
  ∀ ts s s', rel s s' →
    (parse' (ts.map f) s').2.1 = (parse ts s).2.1.map f ∧
      rel (parse ts s).2.2 (parse' (ts.map f) s').2.2

/-- Two families of operators have the same tokens and keep related states related. -/
def BesideOp (op : τ → Option (Action σ ν)) (op' : τ' → Option (Action σ' ν')) : Prop :=
  ∀ t, op t = none ∧ op' (f t) = none ∨
    ∃ act act', op t = some act ∧ op' (f t) = some act' ∧
      ∀ v w v' w' s s', rel s s' → rel (act v w s).2 (act' v' w' s').2

variable {f rel} {op' : τ' → Option (Action σ' ν')} {next' : Parser τ' σ' ν'}

theorem loop_beside (hnext : Beside f rel next next') (hop : BesideOp f rel op op') (n : Nat)
    (v : ν) (v' : ν') : Beside f rel (loop op next n v) (loop op' next' n v') := by
  induction n generalizing v v' with
  | zero => exact fun _ _ _ h => ⟨rfl, h⟩
  | succ n ih =>
    intro ts s s' h
    cases ts with
    | nil => exact ⟨rfl, h⟩
    | cons t ts =>
      rw [List.map_cons]
      rcases hop t with ⟨hnone, hnone'⟩ | ⟨act, act', hact, hact', hkeeps⟩
      · have hstop : ∀ u ∈ (t :: ts).head?, op u = none := by
          rintro _ ⟨⟩
          exact hnone
        have hstop' : ∀ u ∈ (f t :: ts.map f).head?, op' u = none := by
          rintro _ ⟨⟩
          exact hnone'
        rw [loop_stop hstop, loop_stop hstop']
        exact ⟨rfl, h⟩
      · rcases hnext ts s s' h with ⟨hrest, hrel⟩
        rw [loop_step hact, loop_step hact', hrest]
        exact ih _ _ _ _ _ (hkeeps _ _ _ _ _ _ hrel)

theorem level_beside (hnext : Beside f rel next next') (hop : BesideOp f rel op op') :
    Beside f rel (level op next) (level op' next') := by
  intro ts s s' h
  rcases hnext ts s s' h with ⟨hrest, hrel⟩
  dsimp only [level]
  rw [hrest, List.length_map]
  exact loop_beside hnext hop _ _ _ _ _ _ hrel

end

/-! ## A parser that also takes notes -/

section

variable {σ' ν' : Type} (value : ν' → ν) (state : σ' → σ) (inv : σ' → Prop)

/-- The first operator does what the second does, and keeps an invariant of its own state. -/
def FollowsAction (act' : Action σ' ν') (act : Action σ ν) : Prop :=
  ∀ v w s, inv s → inv (act' v w s).2 ∧
    act (value v) (value w) (state s) = (value (act' v w s).1, state (act' v w s).2)

def FollowsOp (op' : τ → Option (Action σ' ν')) (op : τ → Option (Action σ ν)) : Prop :=
  ∀ t, op' t = none ∧ op t = none ∨
    ∃ act' act, op' t = some act' ∧ op t = some act ∧ FollowsAction value state inv act' act

/-- The result of the second parser, from that of the first. -/
def forget (r : Result τ σ' ν') : Result τ σ ν := (value r.1, r.2.1, state r.2.2)

/-- The first parser does what the second does, and keeps an invariant of its own state. -/
def Follows (parse' : Parser τ σ' ν') (parse : Parser τ σ ν) : Prop :=
  ∀ ts s, inv s → inv (parse' ts s).2.2 ∧ parse ts (state s) = forget value state (parse' ts s)

variable {value state inv} {op' : τ → Option (Action σ' ν')} {next' : Parser τ σ' ν'}

theorem loop_follows (hnext : Follows value state inv next' next)
    (hop : FollowsOp value state inv op' op) (n : Nat) (v : ν') :
    Follows value state inv (loop op' next' n v) (loop op next n (value v)) := by
  induction n generalizing v with
  | zero => exact fun _ _ h => ⟨h, rfl⟩
  | succ n ih =>
    intro ts s h
    cases ts with
    | nil => exact ⟨h, rfl⟩
    | cons t ts =>
      rcases hop t with ⟨hnone', hnone⟩ | ⟨act', act, hact', hact, hfollows⟩
      · have hstop : ∀ u ∈ (t :: ts).head?, op u = none := by
          rintro _ ⟨⟩
          exact hnone
        have hstop' : ∀ u ∈ (t :: ts).head?, op' u = none := by
          rintro _ ⟨⟩
          exact hnone'
        rw [loop_stop hstop, loop_stop hstop']
        exact ⟨h, rfl⟩
      · rcases hnext ts s h with ⟨hinv, hrest⟩
        rcases hfollows v (next' ts s).1 _ hinv with ⟨hkept, happlied⟩
        rw [loop_step hact, loop_step hact', hrest]
        dsimp only [forget]
        rw [happlied]
        exact ih _ _ _ hkept

theorem level_follows (hnext : Follows value state inv next' next)
    (hop : FollowsOp value state inv op' op) :
    Follows value state inv (level op' next') (level op next) := by
  intro ts s h
  rcases hnext ts s h with ⟨hinv, hrest⟩
  dsimp only [level]
  rw [hrest]
  exact loop_follows hnext hop _ _ _ _ hinv

end

end Chains

import Formula.Proofs.Grammar.Steps

/-!
From a derivation to a run: the machine reads every text that the grammar derives, and what it reads it feeds to its
level item by item.
-/

namespace Formula

variable {α : Type}

theorem Groups.depth_le {k : Grade} {v : List (Item α)} {t : Term α} (h : Groups k v t) :
    ∀ u, .operand u ∈ v → u.depth ≤ t.depth := by
  induction h with
  | operand t => simp
  | chain _ ih =>
    intro u hu
    simp only [List.mem_append, List.mem_cons, List.not_mem_nil, reduceCtorEq, Item.operand.injEq, false_or,
      or_false] at hu
    rcases hu with hu | rfl
    · exact Nat.le_trans (ih u hu) (Nat.le_max_left _ _)
    · exact Nat.le_max_right _ _
  | exponent _ _ ihl ihr =>
    intro u hu
    simp only [List.mem_append, List.mem_cons, reduceCtorEq, false_or] at hu
    rcases hu with hu | hu
    · exact Nat.le_trans (ihl u hu) (Nat.le_max_left _ _)
    · exact Nat.le_trans (ihr u hu) (Nat.le_max_right _ _)
  | factor _ _ _ ihl ihr | summand _ _ _ ihl ihr =>
    intro u hu
    simp only [List.mem_append, List.mem_cons, reduceCtorEq, false_or] at hu
    rcases hu with hu | hu
    · exact Nat.le_trans (ihl u hu) (Nat.le_max_left _ _)
    · exact Nat.le_trans (ihr u hu) (Nat.le_max_right _ _)
  | sign _ ih =>
    intro u hu
    exact ih u (by simpa using hu)
  | power _ ih | signed _ ih | product _ ih | sum _ ih => exact ih

def Phrase.items : Phrase α → List (Item α)
  | primary t => [.operand t]
  | unit v => v
  | expression v => v

variable [Scalar α] {g : Grammar}

theorem Leaf.here_ne_nil {here rest : List Char} {t : Term α} (h : Leaf g here t rest) : here ≠ [] := by
  cases h with
  | name hn =>
    obtain ⟨-, hne, -⟩ := Grammar.nameAt?_prefix hn
    simp [hne]
  | euler | pi => simp
  | numeral _ h =>
    obtain ⟨x, hx, -⟩ := h.head
    rintro rfl
    simp at hx

namespace Machine

/-- `n` is reached from `m` by single steps. -/
def Steps (g : Grammar) : Machine α → Machine α → Prop := Relation.ReflTransGen fun m n => step g m = .next n

theorem run_of_steps {m n : Machine α} (h : Steps g m n) : run g m = run g n := by
  induction h with
  | refl => rfl
  | tail _ hs ih =>
    rw [ih, run]
    split <;> simp_all

theorem run_of_done {m : Machine α} {s : Sequence α} {rest : Cursor} (h : step g m = .done s rest) :
    run g m = .ok (s, rest) := by
  rw [run]
  split <;> simp_all

theorem run_of_failed {m : Machine α} {e : ParseError} (h : step g m = .failed e) : run g m = .error e := by
  rw [run]
  split <;> simp_all

theorem Steps.of_step {m n : Machine α} (h : step g m = .next n) : Steps g m n := .single h

theorem Steps.trans {m n k : Machine α} (h : Steps g m n) (h' : Steps g n k) : Steps g m k :=
  Relation.ReflTransGen.trans h h'

-- On the derivation. The level and the suspended levels are arbitrary: a phrase touches neither what lies below it on the
-- operator stack nor the levels outside. A call runs its argument on a fresh level one deeper.
theorem steps_of_derives {p : Phrase α} {a b : List Char} (h : Derives g true p a b) (c : Cursor) (l : Level α)
    (outer : List (Suspended α)) (sign : Bool) (hc : c.unread = a) (hs : sign = true → ∃ t, p = .primary t)
    (hd : ∀ u, .operand u ∈ p.items → u.depth + outer.length ≤ g.maxDepth) :
    ∃ d, d.unread = b ∧ Steps g ⟨c, l, outer, .operand sign⟩ ⟨d, l.feed p.items, outer, .operator⟩ := by
  induction h generalizing c l outer sign with
  | leaf hsp hh hl =>
    subst hc
    obtain ⟨d, hd, hstep⟩ := step_leaf hsp (hh rfl) hl hl.here_ne_nil
    exact ⟨d, hd, .of_step hstep⟩
  | @call a b e k f v t hsp hn _ hv hclose ih =>
    subst hc
    have ht : t.depth + 1 + outer.length ≤ g.maxDepth := hd (.call f t) (by simp [Phrase.items])
    have hroom : outer.length + 1 ≤ g.maxDepth := by omega
    obtain ⟨c₁, h₁, hopen⟩ := step_word (l := l) (.inr ⟨f, rfl⟩) hsp hn hroom
    obtain ⟨c₂, h₂, hbody⟩ := ih c₁ {} (⟨l, .unary f⟩ :: outer) false h₁ (by simp) fun u hu => by
      have := hv.depth_le u hu
      simp only [List.length_cons]
      omega
    obtain ⟨c₃, h₃, hend⟩ := step_unary (h₂ ▸ hclose) (Level.opened_feed {} v)
    rw [Level.finish_feed hv] at hend
    exact ⟨c₃, h₃, (Steps.of_step hopen).trans (hbody.trans (.of_step hend))⟩
  | @log a b e f i k v w t u hsp hn _ hv hcomma _ hw hclose ihv ihw =>
    subst hc
    have hu : max t.depth u.depth + 1 + outer.length ≤ g.maxDepth := hd (.log t u) (by simp [Phrase.items])
    have hroom : outer.length + 1 ≤ g.maxDepth := by omega
    obtain ⟨c₁, h₁, hopen⟩ := step_word (l := l) (.inl rfl) hsp hn hroom
    obtain ⟨c₂, h₂, hbase⟩ := ihv c₁ {} (⟨l, .logBase⟩ :: outer) false h₁ (by simp) fun x hx => by
      have := hv.depth_le x hx
      simp only [List.length_cons]
      omega
    obtain ⟨c₃, h₃, hnext⟩ := step_base (h₂ ▸ hcomma) (Level.opened_feed {} v) hroom
    rw [Level.finish_feed hv] at hnext
    obtain ⟨c₄, h₄, harg⟩ := ihw c₃ {} (⟨l, .logArgument t.postorder⟩ :: outer) false h₃ (by simp) fun x hx => by
      have := hw.depth_le x hx
      simp only [List.length_cons]
      omega
    obtain ⟨c₅, h₅, hend⟩ := step_argument (h₄ ▸ hclose) (Level.opened_feed {} w)
    rw [Level.finish_feed hw] at hend
    exact ⟨c₅, h₅, (Steps.of_step hopen).trans (hbase.trans ((Steps.of_step hnext).trans (harg.trans (.of_step hend))))⟩
  | @group a b e k v t hsp hn _ hv hclose ih =>
    subst hc
    obtain ⟨c₁, h₁, hopen⟩ := step_group (l := l) hsp (hn rfl)
    obtain ⟨c₂, h₂, hbody⟩ := ih c₁ l.openParen outer false h₁ (by simp) fun u hu =>
      Nat.le_trans (Nat.add_le_add_right (hv.depth_le u hu) _) (hd _ (by simp [Phrase.items]))
    obtain ⟨c₃, h₃, hend⟩ : ∃ d, d.unread = k ∧ step g ⟨c₂, l.openParen.feed v, outer, .operator⟩ =
        .next ⟨d, (l.openParen.feed v).closeParen, outer, .operator⟩ :=
      step_close (h₂ ▸ hclose) (by rw [Level.opened_feed]; exact Nat.succ_ne_zero _)
    rw [Level.closeParen_feed hv] at hend
    exact ⟨c₃, h₃, (Steps.of_step hopen).trans (hbody.trans (.of_step hend))⟩
  | plain _ ih => exact ih c l outer sign hc (fun _ => ⟨_, rfl⟩) hd
  | minus hsp hn hb _ ih =>
    subst hc
    have hf : sign = false := by
      cases sign with
      | false => rfl
      | true => simpa using hs rfl
    subst hf
    obtain ⟨c₁, h₁, hsign⟩ := step_minus (l := l) hsp (hn rfl) hb
    obtain ⟨c₂, h₂, hbody⟩ := ih c₁ l.minus outer true h₁ (fun _ => ⟨_, rfl⟩) fun u hu =>
      hd u (by simpa [Phrase.items] using hu)
    exact ⟨c₂, h₂, (Steps.of_step hsign).trans hbody⟩
  | single _ ih => exact ih c l outer sign hc (by simpa using hs) hd
  | @more a b e k v w o _ hsp _ ihl ihr =>
    obtain ⟨c₁, h₁, hleft⟩ := ihl c l outer sign hc (by simpa using hs) fun u hu => hd u (List.mem_append_left _ hu)
    obtain ⟨c₂, h₂, hop⟩ : ∃ d, d.unread = e ∧ step g ⟨c₁, l.feed v, outer, .operator⟩ =
        .next ⟨d, (l.feed v).operator o, outer, .operand false⟩ := step_operator (h₁ ▸ hsp)
    obtain ⟨c₃, h₃, hright⟩ := ihr c₂ _ outer false h₂ (by simp) fun u hu =>
      hd u (List.mem_append_right _ (List.mem_cons_of_mem _ hu))
    rw [Phrase.items, Level.feed_op]
    exact ⟨c₃, h₃, hleft.trans ((Steps.of_step hop).trans hright)⟩

end Machine

end Formula

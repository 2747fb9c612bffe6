import Earley.Proofs.Chart.Span

/-!
# What an item reads without the augmented production

A body may mention the reserved nonterminal, which no production is headed by.  Completing the
augmented production moves the dot over it all the same, but only in the first column.  So an item
either has read its characters by the productions of the grammar alone, or it began in the first
column with the reserved nonterminal at its front, and that stands for a word which was accepted
before.
-/

set_option autoImplicit false

namespace Earley

variable {grammar : Grammar} {word : List Char} {start : String} {i k : Nat} {item : Item}
  {s : Symbol}

def Grammar.LeadsToReserved (grammar : Grammar) (start : String) : Prop :=
  ∃ after, Derives grammar.productions [.nonterminal start] (.reserved :: after)

/-- A form of the start symbol derives the word behind the reserved nonterminal at its front. -/
def Grammar.Tail (grammar : Grammar) (start : String) (tail : List Char) : Prop :=
  ∃ after, Derives grammar.productions [.nonterminal start] (.reserved :: after) ∧
    Derives grammar.productions after (Symbol.spelling tail)

/-- The words of the start symbol, with any number of tails behind them. -/
inductive Grammar.Extended (grammar : Grammar) (start : String) : List Char → Prop
  | word {first : List Char}
      (derives : Derives grammar.productions [.nonterminal start] (Symbol.spelling first)) :
      Extended grammar start first
  | tail {first tail : List Char} (before : Extended grammar start first)
      (behind : grammar.Tail start tail) : Extended grammar start (first ++ tail)

theorem Grammar.Extended.ne_nil (solid : .nonterminal start ∉ grammar.nullable)
    (extended : grammar.Extended start word) : word ≠ [] := by
  induction extended with
  | word derives =>
    rintro rfl
    rw [grammar.nullable_eq, nonterminal_mem_nullableSymbols_iff] at solid
    exact solid (derives_spelling_iff.mp derives)
  | tail _ _ ih =>
    intro empty
    exact ih (List.append_eq_nil_iff.mp empty).1

/-- Where the words of the start symbol are closed under tails, tails make no new words. -/
theorem Grammar.Extended.derives (extended : grammar.Extended start word)
    (closed : ∀ first tail,
      Derives grammar.productions [.nonterminal start] (Symbol.spelling first) →
      grammar.Tail start tail →
      Derives grammar.productions [.nonterminal start] (Symbol.spelling (first ++ tail))) :
    Derives grammar.productions [.nonterminal start] (Symbol.spelling word) := by
  induction extended with
  | word derives => exact derives
  | tail _ behind ih => exact closed _ _ ih behind

/-- The symbols lead to the reserved nonterminal at their front.  Unless the start symbol is
nullable, it stands for an extended word there, and what is behind it yields the rest. -/
def Grammar.ReadsReserved (grammar : Grammar) (start : String) (symbols : List Symbol)
    (read : List Char) : Prop :=
  ∃ after, Derives grammar.productions symbols (.reserved :: after) ∧
    (.nonterminal start ∉ grammar.nullable → ∃ first second, read = first ++ second ∧
      grammar.Extended start first ∧ Yields grammar.productions after second)

theorem Grammar.ReadsReserved.append {symbols more : List Symbol} {read next : List Char}
    (reads : grammar.ReadsReserved start symbols read)
    (yields : Yields grammar.productions more next) :
    grammar.ReadsReserved start (symbols ++ more) (read ++ next) := by
  obtain ⟨after, derives, split⟩ := reads
  refine ⟨after ++ more, derives.append (.refl more), fun solid => ?_⟩
  obtain ⟨first, second, rfl, extended, behind⟩ := split solid
  exact ⟨first, second ++ next, by simp, extended, behind.append yields⟩

theorem Grammar.ReadsReserved.behind {symbols more : List Symbol} {read : List Char}
    (front : Yields grammar.productions symbols [] ∨ grammar.ReadsReserved start symbols [])
    (reads : grammar.ReadsReserved start more read) :
    grammar.ReadsReserved start (symbols ++ more) read := by
  obtain ⟨after, derives, split⟩ := reads
  rcases front with empty | ⟨frontAfter, frontDerives, frontSplit⟩
  · exact ⟨after, (derives_spelling_iff.mpr empty).append derives, split⟩
  · refine ⟨frontAfter ++ more, frontDerives.append (.refl more), fun solid => ?_⟩
    obtain ⟨first, second, same, extended, _⟩ := frontSplit solid
    exact absurd (List.append_eq_nil_iff.mp same.symm).1 (extended.ne_nil solid)

/-- What stands before the dot yields the characters since the origin by the productions of the
grammar alone, or it leads to the reserved nonterminal and the item began in the first column. -/
def Item.Accounted (grammar : Grammar) (word : List Char) (start : String) (i : Nat)
    (item : Item) : Prop :=
  Yields grammar.productions (item.body.take item.dot.toNat) (slice word item.origin.toNat i) ∨
    item.origin = 0 ∧
      grammar.ReadsReserved start (item.body.take item.dot.toNat) (slice word 0 i)

namespace Item.Accounted

theorem moved (placed : item.WellPlaced grammar start k)
    (accounted : item.Accounted grammar word start k) (waits : item.waitsOn s = true)
    (inside : i ≤ word.length) (later : k ≤ i)
    (yields : Yields grammar.productions [s] (slice word k i)) :
    item.moved.Accounted grammar word start i := by
  have early := placed.origin_le
  unfold Accounted
  rw [placed.take_moved waits, origin_moved]
  rcases accounted with alone | ⟨origin, reads⟩
  · refine .inl ?_
    rw [← slice_append (m := k) (by omega) later inside]
    exact alone.append yields
  · refine .inr ⟨origin, ?_⟩
    rw [← slice_append (Nat.zero_le k) later inside]
    exact reads.append yields

/-- In the first column an item moves over a symbol that leads to the reserved nonterminal. -/
theorem moved_reserved (placed : item.WellPlaced grammar start 0)
    (accounted : item.Accounted grammar word start 0) (waits : item.waitsOn s = true)
    (reads : grammar.ReadsReserved start [s] (slice word 0 i)) :
    item.moved.Accounted grammar word start i := by
  have low := placed.origin_nonneg
  have high := placed.origin_le
  have origin : item.origin = 0 := by omega
  unfold Accounted at accounted ⊢
  rw [origin, Int.toNat_zero, slice_self] at accounted
  rw [placed.take_moved waits]
  exact .inr ⟨origin, .behind (accounted.imp_right And.right) reads⟩

end Item.Accounted

/-- Where the augmented production was completed, an extended word was read. -/
theorem Item.Accounted.readsReserved_of_augmented (accounted : item.Accounted grammar word start i)
    (complete : item.isComplete = true) (augmented : item.production = .augmented start)
    (origin : item.origin = 0) :
    grammar.ReadsReserved start [.reserved] (slice word 0 i) := by
  have body : item.body = [.nonterminal start] := by rw [Item.body, augmented]; rfl
  refine ⟨[], .refl _, fun solid => ⟨slice word 0 i, [], by simp, ?_, .nil⟩⟩
  unfold Accounted at accounted
  rw [take_complete complete, body, origin, Int.toNat_zero] at accounted
  rcases accounted with alone | ⟨_, after, derives, split⟩
  · exact .word (derives_spelling_iff.mpr alone)
  · obtain ⟨first, second, same, extended, behind⟩ := split solid
    rw [same]
    exact .tail extended ⟨after, derives, derives_spelling_iff.mpr behind⟩

theorem Justified.accounted (justified : Justified grammar word start i item) :
    item.Accounted grammar word start i := by
  induction justified with
  | seed => exact .inl .nil
  | @predicted i item p before _ _ _ =>
    refine .inl ?_
    rw [Item.dot_fresh, Item.origin_fresh, Int.toNat_natCast, slice_self]
    exact .nil
  | skipped before nullable waits ih =>
    refine ih.moved before.wellPlaced waits before.spans.column_le (Nat.le_refl _) ?_
    rw [slice_self]
    obtain ⟨p, member, rfl, inside⟩ := Grammar.yields_of_mem_nullable nullable
    exact .of_body member inside
  | @scanned i item c before read waits ih =>
    have inside := (List.getElem?_eq_some_iff.mp read).1
    refine ih.moved before.wellPlaced waits inside (Nat.le_succ i) ?_
    rw [slice_succ (Nat.le_refl i) read, slice_self]
    exact .terminal c .nil
  | @completed i k inner waiting before inside complete origin waits ih inner_ih =>
    have placed := inside.wellPlaced
    have later : k ≤ i := by
      have early := placed.origin_le
      omega
    rcases Grammar.mem_augmentedProductions.mp placed.production with augmented | member
    · -- The augmented production begins in the first column only, so the waiting item is there.
      have first := inside.origin_of_augmented augmented
      have zero : k = 0 := by omega
      subst zero
      refine ih.moved_reserved before.wellPlaced waits ?_
      have reserved : inner.lhs = .reserved := by rw [Item.lhs, augmented]; rfl
      rw [reserved]
      exact inner_ih.readsReserved_of_augmented complete augmented first
    · have accounted := inner_ih
      unfold Item.Accounted at accounted
      rw [Item.take_complete complete, origin, Int.toNat_natCast] at accounted
      rcases accounted with alone | ⟨first, after, derives, split⟩
      · exact ih.moved before.wellPlaced waits inside.spans.column_le later
          (.of_body member alone)
      · -- What the inner item has read in front is what its head reads in front.
        have zero : k = 0 := by omega
        subst zero
        have opened : Derives grammar.productions [inner.lhs] inner.body := .of_mem member
        exact ih.moved_reserved before.wellPlaced waits ⟨after, opened.trans derives, split⟩

/-- The word that the final item has read is extended, or the start symbol is nullable and leads
to the reserved nonterminal. -/
theorem Justified.extended (justified : Justified grammar word start i (Chart.seed start).moved)
    (harmless : .nonterminal start ∉ grammar.nullable ∨ ¬ grammar.LeadsToReserved start) :
    grammar.Extended start (slice word 0 i) := by
  have accounted := justified.accounted
  rcases accounted with alone | ⟨_, reads⟩
  · exact .word (derives_spelling_iff.mpr alone)
  · obtain ⟨after, derives, split⟩ := reads
    rcases harmless with solid | free
    · obtain ⟨first, second, same, extended, behind⟩ := split solid
      rw [same]
      exact .tail extended ⟨after, derives, derives_spelling_iff.mpr behind⟩
    · exact absurd ⟨after, derives⟩ free

end Earley

import Earley.Proofs.Chart.Pass

/-!
# The stock of a pass

A pass over a column cannot run out of fuel.  Every item it meets belongs to a stock that is fixed
when the pass begins, made of the items at hand and of the productions and origins at hand with
each dot that can be moved to, and a column has no item twice.  So a column is closed behind its
last item, or at a fault.
-/

set_option autoImplicit false

namespace Earley

namespace Chart

variable {chart : Chart} {grammar : Grammar} {item : Item} {index : Int} {place : Nat}

def allItems (chart : Chart) : List Item := chart.columns.toList.flatMap Column.items

def productionStock (chart : Chart) (grammar : Grammar) : List Production :=
  chart.allItems.map Item.production ++ grammar.productions

def originStock (chart : Chart) (index : Int) : List Int :=
  index :: chart.allItems.map Item.origin

def dotStock (origin : Int) (p : Production) : List Item :=
  (List.range (2 * p.body.length)).map fun n : Nat => ⟨origin, (n : Int) + 1 - p.body.length, p⟩

def stock (chart : Chart) (grammar : Grammar) (index : Int) : List Item :=
  chart.allItems ++ (chart.productionStock grammar).flatMap fun p =>
    (chart.originStock index).flatMap fun origin => dotStock origin p

theorem mem_allItems_of_mem_itemsAt (member : item ∈ chart.itemsAt place) :
    item ∈ chart.allItems := by
  unfold itemsAt at member
  split at member
  · rename_i column there
    exact List.mem_flatMap.mpr ⟨column, Array.mem_toList_iff.mpr (Array.mem_of_getElem? there),
      member⟩
  · exact absurd member List.not_mem_nil

theorem mem_dotStock (low : 1 - (item.body.length : Int) ≤ item.dot)
    (high : item.dot ≤ item.body.length) : item ∈ dotStock item.origin item.production := by
  have length : item.production.body.length = item.body.length := rfl
  refine List.mem_map.mpr ⟨(item.dot - 1 + item.body.length).toNat, ?_, ?_⟩
  · rw [List.mem_range]
    omega
  · have dot : ((item.dot - 1 + item.body.length).toNat : Int) + 1 -
        item.production.body.length = item.dot := by omega
    rw [dot]

theorem mem_stock (production : item.production ∈ chart.productionStock grammar)
    (origin : item.origin ∈ chart.originStock index)
    (low : 1 - (item.body.length : Int) ≤ item.dot) (high : item.dot ≤ item.body.length) :
    item ∈ chart.stock grammar index :=
  List.mem_append_right _ (List.mem_flatMap.mpr ⟨_, production,
    List.mem_flatMap.mpr ⟨_, origin, mem_dotStock low high⟩⟩)

theorem parts_of_mem_stock (member : item ∈ chart.stock grammar index) :
    item.production ∈ chart.productionStock grammar ∧ item.origin ∈ chart.originStock index := by
  rcases List.mem_append.mp member with present | made
  · exact ⟨List.mem_append_left _ (List.mem_map_of_mem present),
      List.mem_cons_of_mem _ (List.mem_map_of_mem present)⟩
  · obtain ⟨p, production, made⟩ := List.mem_flatMap.mp made
    obtain ⟨origin, among, made⟩ := List.mem_flatMap.mp made
    obtain ⟨n, _, rfl⟩ := List.mem_map.mp made
    exact ⟨production, among⟩

theorem moved_mem_stock {s : Symbol} (member : item ∈ chart.stock grammar index)
    (waits : item.waitsOn s = true) : item.moved ∈ chart.stock grammar index := by
  obtain ⟨production, origin⟩ := parts_of_mem_stock member
  obtain ⟨low, high⟩ := Item.dot_bounds_of_waitsOn waits
  refine mem_stock production origin ?_ ?_
  · rw [Item.body_moved, Item.dot_moved]
    omega
  · rw [Item.body_moved, Item.dot_moved]
    omega

theorem fresh_mem_stock {p : Production} (member : p ∈ grammar.productions) :
    .fresh p index ∈ chart.stock grammar index := by
  have positive := List.length_pos_iff.mpr p.body_ne_nil
  refine mem_stock (List.mem_append_right _ member) List.mem_cons_self ?_ ?_
  · rw [Item.body_fresh, Item.dot_fresh]
    omega
  · rw [Item.body_fresh, Item.dot_fresh]
    omega

/-! ## The size of the stock -/

theorem foldl_add {α : Type} (f : α → Nat) (n : Nat) (xs : List α) :
    xs.foldl (fun n x => n + f x) n = n + xs.foldl (fun n x => n + f x) 0 := by
  induction xs generalizing n with
  | nil => rfl
  | cons x xs ih =>
    rw [List.foldl_cons, List.foldl_cons, ih, ih (0 + f x)]
    omega

theorem dotPlaces_cons (p : Production) (rest : List Production) :
    dotPlaces (p :: rest) = p.body.length + 1 + dotPlaces rest := by
  unfold dotPlaces
  rw [List.foldl_cons, foldl_add, Nat.zero_add]

theorem dotPlaces_append (first second : List Production) :
    dotPlaces (first ++ second) = dotPlaces first + dotPlaces second := by
  unfold dotPlaces
  rw [List.foldl_append, foldl_add]

theorem dotPlacesOf_eq_dotPlaces (columns : List Column) :
    dotPlacesOf columns = dotPlaces ((columns.flatMap Column.items).map Item.production) := by
  have items : ∀ (n : Nat) (items : List Item),
      items.foldl (fun n item => n + (item.body.length + 1)) n =
        n + dotPlaces (items.map Item.production) := by
    intro n items
    rw [foldl_add, dotPlaces, List.foldl_map]
    rfl
  have folded : ∀ n, columns.foldl (fun n column =>
      column.items.foldl (fun n item => n + (item.body.length + 1)) n) n =
        n + dotPlaces ((columns.flatMap Column.items).map Item.production) := by
    induction columns with
    | nil => exact fun n => rfl
    | cons column rest ih =>
      intro n
      rw [List.foldl_cons, ih, items, List.flatMap_cons, List.map_append, dotPlaces_append,
        Nat.add_assoc]
  unfold dotPlacesOf
  rw [folded, Nat.zero_add]

theorem length_le_dotPlaces (productions : List Production) :
    productions.length ≤ dotPlaces productions := by
  induction productions with
  | nil => exact Nat.le_refl 0
  | cons p rest ih =>
    rw [dotPlaces_cons, List.length_cons]
    omega

theorem length_made (productions : List Production) (origins : List Int) :
    (productions.flatMap fun p => origins.flatMap fun origin => dotStock origin p).length ≤
      2 * dotPlaces productions * origins.length := by
  induction productions with
  | nil => exact Nat.zero_le _
  | cons p rest ih =>
    have each : (origins.flatMap fun origin => dotStock origin p).length =
        origins.length * (2 * p.body.length) := by
      clear ih
      induction origins with
      | nil => simp
      | cons origin rest ih =>
        rw [List.flatMap_cons, List.length_append, ih, dotStock, List.length_map,
          List.length_range, List.length_cons, Nat.add_mul, Nat.one_mul, Nat.add_comm]
    rw [List.flatMap_cons, List.length_append, each, dotPlaces_cons, Nat.mul_add, Nat.add_mul]
    have first : origins.length * (2 * p.body.length) ≤
        2 * (p.body.length + 1) * origins.length := by
      rw [Nat.mul_comm]
      exact Nat.mul_le_mul_right _ (by omega)
    exact Nat.add_le_add first ih

theorem length_stock_lt (chart : Chart) (grammar : Grammar) (index : Int) :
    (chart.stock grammar index).length < chart.itemBound grammar := by
  have places : dotPlaces (chart.productionStock grammar) =
      dotPlacesOf chart.columns.toList + dotPlaces grammar.productions := by
    rw [productionStock, dotPlacesOf_eq_dotPlaces, dotPlaces_append]
    rfl
  have few : chart.allItems.length ≤ dotPlaces (chart.productionStock grammar) := by
    have productions := length_le_dotPlaces (chart.productionStock grammar)
    rw [productionStock, List.length_append, List.length_map] at productions
    rw [productionStock]
    omega
  have made := length_made (chart.productionStock grammar) (chart.originStock index)
  have origins : (chart.originStock index).length ≤
      dotPlaces (chart.productionStock grammar) + 1 := by
    rw [originStock, List.length_cons, List.length_map]
    omega
  have scaled := Nat.mul_le_mul_left (2 * dotPlaces (chart.productionStock grammar)) origins
  unfold stock itemBound
  rw [List.length_append, ← places]
  dsimp only
  omega

/-! ## Closing a column -/

/-- The chart of a pass over a column: the items come from the stock, and as many as were visited
are there. -/
def Stocked (start : Chart) (grammar : Grammar) (index : Int) (place visited : Nat)
    (chart : Chart) : Prop :=
  (∀ k item, item ∈ chart.itemsAt k → item ∈ start.stock grammar index) ∧
    visited ≤ (chart.itemsAt place).length

theorem turnKeeps_stocked (start : Chart) (grammar : Grammar) (index : Int) (place : Nat) :
    TurnKeeps grammar index place (start.Stocked grammar index place) := by
  intro visited chart item batch after ⟨stocked, _⟩ turn takes follows
  have member : item ∈ chart.itemsAt place := List.mem_of_getElem? turn
  refine ⟨?_, ?_⟩
  · intro k x present
    by_cases same : k = place
    · subst same
      rcases takes.mem_itemsAt.mp present with old | new
      · exact stocked k x old
      · rcases (follows x).mp new with ⟨rule, _⟩ | ⟨_, waits⟩ | ⟨_, origin, among, waits⟩
        · exact fresh_mem_stock rule
        · exact moved_mem_stock (stocked k item member) waits
        · obtain ⟨other, _, there⟩ := place_of_column origin
          rw [← itemsAt_of_some there] at among
          exact moved_mem_stock (stocked other _ among) waits
    · rw [takes.itemsAt_of_ne same] at present
      exact stocked k x present
  · have inside := (List.getElem?_eq_some_iff.mp turn).1
    have longer := (takes.prefix_itemsAt place).length_le
    omega

/-- A column is closed behind its last item, or at the fault of a turn. -/
theorem close_passEnd {motive : Nat → Chart → Prop} (keeps : TurnKeeps grammar index place motive)
    (found : chart.place index = .ok place) (start : motive 0 chart) :
    (chart.close grammar index).fault = none ∧
        motive ((chart.close grammar index).chart.itemsAt place).length
          (chart.close grammar index).chart ∧
        (chart.close grammar index).visited =
          ((chart.close grammar index).chart.itemsAt place).length ∨
      ∃ visited item fault, (chart.close grammar index).fault = some fault ∧
        motive visited (chart.close grammar index).chart ∧
        ((chart.close grammar index).chart.itemsAt place)[visited]? = some item ∧
        (chart.close grammar index).chart.visit grammar item index =
          ⟨(chart.close grammar index).chart, false, some fault⟩ := by
  have both : TurnKeeps grammar.withNullable index place fun visited current =>
      motive visited current ∧ chart.Stocked grammar index place visited current := by
    intro visited current item batch after ⟨holds, stocked⟩ turn takes follows
    have follows : ∀ x, x ∈ batch ↔ current.Follows grammar index item x := fun x =>
      (follows x).trans follows_withNullable
    exact ⟨keeps visited current item batch after holds turn takes follows,
      turnKeeps_stocked chart grammar index place visited current item batch after stocked turn
        takes follows⟩
  have stocked : chart.Stocked grammar index place 0 chart :=
    ⟨fun k item member => List.mem_append_left _ (mem_allItems_of_mem_itemsAt member),
      Nat.zero_le _⟩
  have ends := closeFrom_passEnd both (chart.itemBound grammar) 0 false found ⟨start, stocked⟩
  unfold close
  rw [found]
  dsimp only
  cases ends with
  | finished faultless holds all =>
    have counted := Nat.le_antisymm holds.2.2 all
    rw [← counted]
    exact .inl ⟨faultless, holds.1, rfl⟩
  | exhausted faultless holds spent =>
    have bounded := (nodup_itemsAt _ place).length_le_of_subset fun item => holds.2.1 place item
    have limit := length_stock_lt chart grammar index
    have visited := holds.2.2
    omega
  | @faulty visited item fault failed counted holds turn same =>
    exact .inr ⟨visited, item, fault, failed, holds.1, turn, same⟩

/-- What every turn keeps of the chart is kept by the pass, however it ends. -/
theorem close_rule {motive : Chart → Prop}
    (keeps : TurnKeeps grammar index place fun _ current => motive current)
    (found : chart.place index = .ok place) (start : motive chart) :
    motive (chart.close grammar index).chart := by
  rcases close_passEnd keeps found start with ⟨_, holds, _⟩ | ⟨_, _, _, _, holds, _⟩
  · exact holds
  · exact holds

theorem visited_close (found : chart.place index = .ok place)
    (faultless : (chart.close grammar index).fault = none) :
    (chart.close grammar index).visited =
      ((chart.close grammar index).chart.itemsAt place).length := by
  have nothing : TurnKeeps grammar index place fun _ _ => True := fun _ _ _ _ _ _ _ _ _ => trivial
  rcases close_passEnd nothing found trivial with ⟨_, _, all⟩ | ⟨_, _, fault, failed, _⟩
  · exact all
  · cases faultless.symm.trans failed

end Chart

end Earley

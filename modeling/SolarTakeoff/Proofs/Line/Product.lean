import SolarTakeoff.Catalog
import SolarTakeoff.Proofs.Line.Bounds
import Mathlib.Tactic

/-!
# The product on a line

A rule and an entry of a snapshot choose in the same way, by position: the
earliest primary one of their candidates or, where none is primary, the first.
The line then shows the source of the chosen one and nothing else.  A source in
a price list fills all fields, those that it leaves empty included, and a cost
that cannot be used leaves the line without one.
-/

namespace SolarTakeoff

/-! ## Choosing by position -/

/-- The item at the index is the earliest primary one, or the first of items none
of which is primary. -/
structure ChosenAt {α : Type} (isPrimary : α → Bool) (items : List α) (index : ℕ) (item : α) :
    Prop where
  place : items[index]? = some item
  chosen : (isPrimary item = true ∧
      ∀ earlier < index, ∀ before, items[earlier]? = some before → isPrimary before = false) ∨
    (index = 0 ∧ ∀ any ∈ items, isPrimary any = false)

namespace ChosenAt

variable {α β : Type} {isPrimary : α → Bool} {items : List α} {index other : ℕ}
  {item second : α}

theorem index_le (h : ChosenAt isPrimary items index item)
    (hother : ChosenAt isPrimary items other second) : index ≤ other := by
  by_contra hlt
  rcases h.chosen with ⟨hprimary, hbefore⟩ | ⟨rfl, -⟩
  · have hsecond := hbefore other (Nat.lt_of_not_le hlt) second hother.place
    rcases hother.chosen with ⟨hprimary', -⟩ | ⟨-, hnone⟩
    · rw [hsecond] at hprimary'
      cases hprimary'
    · rw [hnone item (List.mem_of_getElem? h.place)] at hprimary
      cases hprimary
  · exact hlt (Nat.zero_le other)

theorem unique (h : ChosenAt isPrimary items index item)
    (hother : ChosenAt isPrimary items other second) : index = other ∧ item = second := by
  obtain rfl := Nat.le_antisymm (h.index_le hother) (hother.index_le h)
  exact ⟨rfl, Option.some.inj (h.place.symm.trans hother.place)⟩

theorem of_map {isPrimary' : β → Bool} {f : α → β} {chosen : β}
    (hf : ∀ item, isPrimary' (f item) = isPrimary item)
    (h : ChosenAt isPrimary' (items.map f) index chosen) :
    ∃ item, f item = chosen ∧ ChosenAt isPrimary items index item := by
  obtain ⟨hplace, hchosen⟩ := h
  rw [List.getElem?_map, Option.map_eq_some_iff] at hplace
  obtain ⟨item, hitem, rfl⟩ := hplace
  rw [hf] at hchosen
  refine ⟨item, rfl, hitem, ?_⟩
  rcases hchosen with ⟨hprimary, hbefore⟩ | ⟨hzero, hnone⟩
  · refine .inl ⟨hprimary, ?_⟩
    intro earlier hearlier before hplace
    rw [← hf]
    exact hbefore earlier hearlier _ (by rw [List.getElem?_map, hplace, Option.map_some])
  · refine .inr ⟨hzero, ?_⟩
    intro any hany
    rw [← hf]
    exact hnone _ (List.mem_map_of_mem hany)

end ChosenAt

theorem exists_chosenAt_of_selectCandidate? {candidates : List Candidate} {candidate : Candidate}
    (h : selectCandidate? candidates = some candidate) :
    ∃ index, ChosenAt Candidate.isPrimary candidates index candidate := by
  unfold selectCandidate? at h
  cases hfind : candidates.find? (·.isPrimary) with
  | some primary =>
      rw [hfind] at h
      obtain rfl : primary = candidate := Option.some.inj h
      obtain ⟨hprimary, index, hindex, rfl, hbefore⟩ := List.find?_eq_some_iff_getElem.mp hfind
      refine ⟨index, List.getElem?_eq_getElem hindex, .inl ⟨hprimary, ?_⟩⟩
      intro earlier hearlier before hplace
      obtain ⟨-, rfl⟩ := List.getElem?_eq_some_iff.mp hplace
      simpa using hbefore earlier hearlier
  | none =>
      rw [hfind] at h
      have hfirst : candidates[0]? = some candidate := by
        rw [← List.head?_eq_getElem?]
        exact h
      refine ⟨0, hfirst, .inr ⟨rfl, ?_⟩⟩
      simpa using hfind

theorem selectCandidate?_eq_none_iff {candidates : List Candidate} :
    selectCandidate? candidates = none ↔ candidates = [] := by
  unfold selectCandidate?
  cases candidates with
  | nil => simp
  | cons candidate candidates =>
      cases hfind : (candidate :: candidates).find? (·.isPrimary) <;> simp

theorem selectCandidate?_of_chosenAt {candidates : List Candidate} {index : ℕ}
    {candidate : Candidate} (h : ChosenAt Candidate.isPrimary candidates index candidate) :
    selectCandidate? candidates = some candidate := by
  cases hselect : selectCandidate? candidates with
  | none =>
      rw [selectCandidate?_eq_none_iff] at hselect
      rw [hselect] at h
      cases h.place
  | some other =>
      obtain ⟨index', hother⟩ := exists_chosenAt_of_selectCandidate? hselect
      rw [(h.unique hother).2]

/-! ## What a line shows -/

namespace Line

/-- A usable cost is the cost of the line and prices it; any other leaves the line
without a cost and with nothing to pay. -/
structure ShowsOffer (line : Line) (offer : Offer) : Prop where
  brand : line.product.offer.brand = offer.brand
  model : line.product.offer.model = offer.model
  sku : line.product.offer.sku = offer.sku
  costed : ∀ cost, offer.unitCost = some cost → cost.isFinite = true →
    Binary64.zero.le cost = true →
      line.unitCost = some cost ∧ line.totalCost = Money.lineTotal cost line.quantity
  uncosted : (∀ cost, offer.unitCost = some cost →
      cost.isFinite = false ∨ cost.lt .zero = true) →
    line.unitCost = none ∧ line.isCosted = false ∧ line.totalCost = .zero

structure ShowsSupplier (line : Line) (record : SupplierProduct) : Prop where
  supplierProductId : line.product.supplierProductId = some record.id
  supplierId : line.product.supplierId = some record.supplierId
  supplierName : line.product.supplierName = some record.supplierName
  offer : line.ShowsOffer record.offer

structure ShowsDirect (line : Line) (offer : Offer) : Prop where
  supplierProductId : line.product.supplierProductId = none
  supplierId : line.product.supplierId = none
  supplierName : line.product.supplierName = none
  offer : line.ShowsOffer offer

def ShowsSource (line : Line) : ProductSource → Prop
  | .supplier record => line.ShowsSupplier record
  | .direct offer => line.ShowsDirect offer

end Line

namespace Rule

variable {rule : Rule} {job : Job} {line : Line} {resolution : Resolution}

theorem showsOffer_lineOf {product : Product} (hproduct : rule.product?.getD {} = product) :
    (rule.lineOf resolution).ShowsOffer product.offer := by
  have hcost : (rule.lineOf resolution).unitCost = product.usableCost? := by
    rw [unitCost_lineOf, hproduct]
  subst hproduct
  refine ⟨rfl, rfl, rfl, ?_, ?_⟩
  · intro cost hoffer hfinite hzero
    have hsome := Product.usableCost?_eq_some_iff.mpr ⟨hoffer, hfinite, hzero⟩
    rw [totalCost_lineOf, hcost, hsome]
    exact ⟨rfl, rfl⟩
  · intro hunusable
    have hnone : (rule.product?.getD {}).usableCost? = none := by
      rw [Option.eq_none_iff_forall_ne_some]
      intro cost hsome
      obtain ⟨hoffer, hfinite, hzero⟩ := Product.usableCost?_eq_some_iff.mp hsome
      rcases hunusable cost hoffer with hinfinite | hnegative
      · rw [hinfinite] at hfinite
        cases hfinite
      · rw [(Binary64.le_eq_false_iff_of_isFinite Binary64.isFinite_zero hfinite).mpr hnegative]
          at hzero
        cases hzero
    rw [totalCost_lineOf, Line.isCosted, hcost, hnone]
    exact ⟨rfl, rfl, rfl⟩

theorem showsSource_lineOf {candidate : Candidate}
    (h : selectCandidate? rule.candidates = some candidate) :
    (rule.lineOf resolution).ShowsSource candidate.source := by
  have hproduct : rule.product?.getD {} = candidate.source.product := by
    rw [product?, h]
    rfl
  have hline : (rule.lineOf resolution).product =
      candidate.source.product.withCost candidate.source.product.usableCost? := by
    rw [← hproduct]
    rfl
  have hoffer := @showsOffer_lineOf rule resolution _ hproduct
  cases hsource : candidate.source with
  | supplier record =>
      rw [hsource] at hline hoffer
      exact ⟨by rw [hline]; rfl, by rw [hline]; rfl, by rw [hline]; rfl, hoffer⟩
  | direct offer =>
      rw [hsource] at hline hoffer
      exact ⟨by rw [hline]; rfl, by rw [hline]; rfl, by rw [hline]; rfl, hoffer⟩

theorem showsDirect_lineOf (h : rule.candidates = []) :
    (rule.lineOf resolution).ShowsDirect {} := by
  have hproduct : rule.product? = none := by
    rw [product?, h]
    rfl
  have hline : (rule.lineOf resolution).product =
      Product.withCost {} (Product.usableCost? {}) := by
    rw [lineOf, hproduct]
    rfl
  have hoffer := @showsOffer_lineOf rule resolution {} (by rw [hproduct]; rfl)
  exact ⟨by rw [hline]; rfl, by rw [hline]; rfl, by rw [hline]; rfl, hoffer⟩

theorem exists_chosenAt_of_value_line? (h : (rule.line? job).value = some line) :
    (∃ index candidate, ChosenAt Candidate.isPrimary rule.candidates index candidate ∧
        line.ShowsSource candidate.source) ∨
      rule.candidates = [] ∧ line.ShowsDirect {} := by
  obtain ⟨-, -, rfl⟩ := value_line?_eq_some_iff.mp h
  cases hselect : selectCandidate? rule.candidates with
  | none =>
      have hnil := selectCandidate?_eq_none_iff.mp hselect
      exact .inr ⟨hnil, showsDirect_lineOf hnil⟩
  | some candidate =>
      obtain ⟨index, hchosen⟩ := exists_chosenAt_of_selectCandidate? hselect
      exact .inl ⟨index, candidate, hchosen, showsSource_lineOf hselect⟩

/-- Whatever else there is to choose from, the line and all that is said about it
are the same. -/
theorem line?_of_selectCandidate?_eq {candidates : List Candidate}
    (h : selectCandidate? candidates = selectCandidate? rule.candidates) :
    { rule with candidates }.line? job = rule.line? job := by
  have hproduct : { rule with candidates }.product? = rule.product? := by
    rw [product?, product?, h]
  have hresolve : { rule with candidates }.resolve job = rule.resolve job := rfl
  unfold line? lineOf costWarning?
  rw [hproduct, hresolve]
  rfl

end Rule

theorem CatalogCandidate.isPrimary_candidate (product : CatalogCandidate) :
    product.candidate.isPrimary = product.isPrimary :=
  rfl

theorem CatalogCandidate.shows_of_showsSource {product : CatalogCandidate} {line : Line}
    (h : line.ShowsSource product.candidate.source) :
    (∀ record, product.supplierProduct = some record → line.ShowsSupplier record) ∧
      (product.supplierProduct = none → line.ShowsDirect product.offer) := by
  unfold candidate at h
  cases hrecord : product.supplierProduct with
  | none =>
      rw [hrecord] at h
      exact ⟨fun _ hsome => (Option.some_ne_none _ hsome.symm).elim, fun _ => h⟩
  | some own =>
      rw [hrecord] at h
      refine ⟨?_, fun hnone => (Option.some_ne_none _ hnone).elim⟩
      intro record hsome
      obtain rfl := Option.some.inj hsome
      exact h

/-- A line shows the source of exactly one candidate, the earliest primary one or
else the first, and an empty product where there are none; entries of a snapshot
choose at the same places as their rules, and a price-list entry stands before the
candidate's own offer.  Whatever the other candidates are, they change nothing. -/
theorem line_shows_chosen_source :
    (∀ (rule : Rule) job line, (rule.line? job).value = some line →
      (∃ index candidate, ChosenAt Candidate.isPrimary rule.candidates index candidate ∧
          line.ShowsSource candidate.source) ∨
        rule.candidates = [] ∧ line.ShowsDirect {}) ∧
    (∀ (entry : CatalogEntry) job line, (entry.rule.line? job).value = some line →
      (∃ index product, ChosenAt CatalogCandidate.isPrimary entry.products index product ∧
          (∀ record, product.supplierProduct = some record → line.ShowsSupplier record) ∧
          (product.supplierProduct = none → line.ShowsDirect product.offer)) ∨
        entry.products = [] ∧ line.ShowsDirect {}) ∧
    (∀ {α : Type} (isPrimary : α → Bool) items index other item second,
      ChosenAt isPrimary items index item → ChosenAt isPrimary items other second →
        index = other ∧ item = second) ∧
    ∀ (rule : Rule) job candidates index other candidate,
      ChosenAt Candidate.isPrimary rule.candidates index candidate →
        ChosenAt Candidate.isPrimary candidates other candidate →
          { rule with candidates }.line? job = rule.line? job := by
  refine ⟨?_, ?_, ?_, ?_⟩
  · intro rule job line hline
    exact Rule.exists_chosenAt_of_value_line? hline
  · intro entry job line hline
    rcases Rule.exists_chosenAt_of_value_line? hline with
      ⟨index, candidate, hchosen, hshows⟩ | ⟨hnil, hshows⟩
    · obtain ⟨product, rfl, hproduct⟩ :=
        ChosenAt.of_map CatalogCandidate.isPrimary_candidate hchosen
      exact .inl ⟨index, product, hproduct, CatalogCandidate.shows_of_showsSource hshows⟩
    · exact .inr ⟨List.map_eq_nil_iff.mp hnil, hshows⟩
  · intro α isPrimary items index other item second h hother
    exact h.unique hother
  · intro rule job candidates index other candidate h hother
    apply Rule.line?_of_selectCandidate?_eq
    rw [selectCandidate?_of_chosenAt h, selectCandidate?_of_chosenAt hother]

/-- An entry of a price list that has no cost, and a candidate with a cost of its
own that refers to it. -/
def unpricedRail : SupplierProduct where
  id := "rail-240"
  supplierId := "acme"
  supplierName := "Acme"
  offer := { sku := some "R240" }

def linkedRail : CatalogCandidate where
  isPrimary := true
  offer := { unitCost := some (.ofNat 5), brand := some "Generic" }
  supplierProduct := some unpricedRail

def railEntry : CatalogEntry where
  id := "rails"
  name := "Rails"
  category := "MOUNTING"
  strategyTag := "FIXED"
  base := .ofNat 4
  products := [{ offer := { unitCost := some (.ofNat 3) } }, linkedRail]

theorem chosenAt_second {α : Type} {isPrimary : α → Bool} {first second : α}
    (hfirst : isPrimary first = false) (hsecond : isPrimary second = true) :
    ChosenAt isPrimary [first, second] 1 second := by
  refine ⟨rfl, .inl ⟨hsecond, ?_⟩⟩
  intro earlier hearlier before hplace
  obtain rfl := Nat.lt_one_iff.mp hearlier
  obtain rfl := Option.some.inj hplace
  exact hfirst

theorem line_railEntry_shows_unpricedRail :
    ∃ line, (railEntry.rule.line? bareJob).value = some line ∧
      line.ShowsSupplier unpricedRail ∧ line.totalCost = .zero ∧
      { railEntry.rule with candidates := [linkedRail.candidate] }.line? bareJob =
        railEntry.rule.line? bareJob := by
  obtain ⟨-, hentries, hunique, hothers⟩ := line_shows_chosen_source
  have hline : (railEntry.rule.line? bareJob).value =
      some (railEntry.rule.lineOf (railEntry.rule.resolve bareJob)) :=
    Rule.value_line?_eq_some_iff.mpr ⟨by decide +kernel, by decide +kernel, rfl⟩
  have hproduct : ChosenAt CatalogCandidate.isPrimary railEntry.products 1 linkedRail :=
    chosenAt_second rfl rfl
  have hcandidate :
      ChosenAt Candidate.isPrimary railEntry.rule.candidates 1 linkedRail.candidate :=
    chosenAt_second rfl rfl
  have honly : ChosenAt Candidate.isPrimary [linkedRail.candidate] 0 linkedRail.candidate :=
    ⟨rfl, .inl ⟨rfl, fun _ hearlier => (Nat.not_lt_zero _ hearlier).elim⟩⟩
  rcases hentries _ _ _ hline with ⟨index, product, hchosen, hlinked, -⟩ | ⟨hnil, -⟩
  · obtain ⟨rfl, rfl⟩ := hunique _ _ _ _ _ _ hproduct hchosen
    have hshows := hlinked unpricedRail rfl
    have huncosted := hshows.offer.uncosted (by simp [unpricedRail])
    exact ⟨_, hline, hshows, huncosted.2.2, hothers _ _ _ _ _ _ hcandidate honly⟩
  · cases hnil

end SolarTakeoff

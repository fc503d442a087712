import Voxlib.Http.Router

/-!
# Routes
-/

namespace Voxlib.Router
open CStr List Option

variable {H : Type}

def IsParam (seg : Bytes) : Prop := seg.head? = some 58

instance (seg : Bytes) : Decidable (IsParam seg) := inferInstanceAs (Decidable (_ = _))

/-- The parameters that the segments of a path give to a pattern that they match: a static segment
matches itself, `:name` any segment, and `*` at the end all that remain, one or more. -/
def matchSegments : List Bytes → List Bytes → Option (List (Bytes × Bytes))
  | [], [] => some []
  | [], _ :: _ => none
  | _ :: _, [] => none
  | p :: ps, s :: ss =>
    if IsParam p then (matchSegments ps ss).map ((p.tail, s) :: ·)
    else if p = star ∧ ps = [] then some []
    else if p = s then matchSegments ps ss
    else none

def pieces (path : Bytes) : List Bytes := (path.splitOn 47).filter (· ≠ [])

/-- A route: the segments of its pattern and its handlers. -/
structure Route (H : Type) where
  segs : List Bytes
  handlers : List H

def lastHandlers (routes : List (Route H)) (segs : List Bytes) : List H :=
  routes.foldl (fun hs r => if r.segs = segs then r.handlers else hs) []

/- A route goes on with this static segment behind these segments. -/
def Offers (routes : List (Route H)) (front : List Bytes) (seg : Bytes) : Prop :=
  ¬ IsParam seg ∧ ∃ r ∈ routes, ∃ back, r.segs = front ++ seg :: back

/-- The pattern is the first choice on the path: where it has another segment than the path, no
route has the path's one, where it has a parameter, none has `*`, and a `*` at its end that stands
against a `*` is the last. -/
def FirstChoice (routes : List (Route H)) (q path : List Bytes) : Prop :=
  ∀ front p back, q = front ++ p :: back → ∀ s, path[front.length]? = some s →
    (p ≠ s → ¬ Offers routes front s) ∧ (IsParam p → ¬ Offers routes front star) ∧
      (p = star → s = star → back = [] → path.length = q.length)

def behind (seg : Bytes) (routes : List (Route H)) : List (Route H) :=
  routes.filterMap fun r =>
    match r.segs with
    | [] => none
    | p :: ps => if p = seg then some ⟨ps, r.handlers⟩ else none

variable {seg : Bytes} {routes : List (Route H)}

theorem mem_behind {r : Route H} :
    r ∈ behind seg routes ↔ ⟨seg :: r.segs, r.handlers⟩ ∈ routes := by
  rw [behind, mem_filterMap]
  constructor
  · rintro ⟨⟨segs, hs⟩, hmem, hr⟩
    cases segs with
    | nil => cases hr
    | cons p ps =>
      dsimp only at hr
      split_ifs at hr with hp
      cases hr
      rw [← hp]
      exact hmem
  · intro hmem
    exact ⟨_, hmem, by simp⟩

theorem behind_append (seg : Bytes) (routes : List (Route H)) (r : Route H) :
    behind seg (routes ++ [r]) = behind seg routes ++ behind seg [r] := filterMap_append

theorem lastHandlers_append (routes : List (Route H)) (r : Route H) (segs : List Bytes) :
    lastHandlers (routes ++ [r]) segs =
      if r.segs = segs then r.handlers else lastHandlers routes segs := by
  rw [lastHandlers, foldl_append]
  rfl

theorem lastHandlers_behind (seg : Bytes) (routes : List (Route H)) (segs : List Bytes) :
    lastHandlers (behind seg routes) segs = lastHandlers routes (seg :: segs) := by
  induction routes using List.reverseRecOn with
  | nil => rfl
  | append_singleton routes r ih =>
    obtain ⟨segs', hs⟩ := r
    rw [behind_append, lastHandlers_append]
    cases segs' with
    | nil =>
      have hnone : behind seg [(⟨[], hs⟩ : Route H)] = [] := rfl
      rw [hnone, append_nil, ih]
      rfl
    | cons p ps =>
      by_cases hp : p = seg
      · have hone : behind seg [(⟨p :: ps, hs⟩ : Route H)] = [⟨ps, hs⟩] := by simp [behind, hp]
        rw [hone, lastHandlers_append, ih, hp]
        simp
      · have hnone : behind seg [(⟨p :: ps, hs⟩ : Route H)] = [] := by simp [behind, hp]
        rw [hnone, append_nil, ih, if_neg (by simp [hp])]

theorem lastHandlers_mem {segs : List Bytes} (h : lastHandlers routes segs ≠ []) :
    ∃ r ∈ routes, r.segs = segs := by
  induction routes using List.reverseRecOn with
  | nil => exact (h rfl).elim
  | append_singleton routes r ih =>
    rw [lastHandlers_append] at h
    by_cases hr : r.segs = segs
    · exact ⟨r, mem_append_right _ (mem_singleton_self r), hr⟩
    · rw [if_neg hr] at h
      obtain ⟨r', hmem, hr'⟩ := ih h
      exact ⟨r', mem_append_left _ hmem, hr'⟩

theorem lastHandlers_ne_nil {r : Route H} (hr : r ∈ routes) (hall : ∀ r ∈ routes, r.handlers ≠ []) :
    lastHandlers routes r.segs ≠ [] := by
  induction routes using List.reverseRecOn with
  | nil => cases hr
  | append_singleton routes r' ih =>
    rw [lastHandlers_append]
    split_ifs with hsame
    · exact hall r' (mem_append_right _ (mem_singleton_self r'))
    · rcases mem_append.mp hr with hold | hnew
      · exact ih hold fun x hx => hall x (mem_append_left _ hx)
      · rw [mem_singleton.mp hnew] at hsame
        exact (hsame rfl).elim

def insertAll : List (Route H) → RNode H → Option (RNode H)
  | [], node => some node
  | r :: routes, node =>
    let done := insert r.handlers r.segs node
    if done.2 then insertAll routes done.1 else none

def emptyNode (splat : Bool) : RNode H := .mk splat (fun _ => none) none []

def Tree (splat : Bool) (routes : List (Route H)) (node : RNode H) : Prop :=
  insertAll routes (emptyNode splat) = some node

theorem insertAll_append (routes more : List (Route H)) (node : RNode H) :
    insertAll (routes ++ more) node = (insertAll routes node).bind (insertAll more) := by
  induction routes generalizing node with
  | nil => rfl
  | cons r routes ih =>
    rw [cons_append, insertAll, insertAll]
    split_ifs
    · exact ih _
    · rfl

variable {splat : Bool} {node : RNode H}

theorem tree_append {r : Route H} : Tree splat (routes ++ [r]) node ↔
      ∃ before, Tree splat routes before ∧ insert r.handlers r.segs before = (node, true) := by
  rw [Tree, insertAll_append, bind_eq_some_iff]
  constructor
  · rintro ⟨before, hbefore, hlast⟩
    rw [insertAll] at hlast
    split_ifs at hlast with hdone
    cases hlast
    exact ⟨before, hbefore, Prod.ext rfl hdone⟩
  · rintro ⟨before, hbefore, hlast⟩
    refine ⟨before, hbefore, ?_⟩
    rw [insertAll, hlast]
    rfl

theorem insert_isSplat (hs : List H) (segs : List Bytes) (node : RNode H) :
    (insert hs segs node).1.isSplat = node.isSplat := by
  cases segs with
  | nil => exact RNode.isSplat_setHandlers node hs
  | cons seg rest =>
    rw [insert]
    dsimp only
    split_ifs
    · rfl
    · split
      · rfl
      · exact RNode.isSplat_setParam ..
    · exact RNode.isSplat_setStatic ..
    · exact RNode.isSplat_setStatic ..

theorem tree_isSplat (h : Tree splat routes node) : node.isSplat = splat := by
  induction routes using List.reverseRecOn generalizing node with
  | nil =>
    cases h
    rfl
  | append_singleton routes r ih =>
    obtain ⟨before, hbefore, hlast⟩ := tree_append.mp h
    have hkeep := insert_isSplat r.handlers r.segs before
    rw [hlast] at hkeep
    exact hkeep.trans (ih hbefore)

structure Shape (routes : List (Route H)) (node : RNode H) : Prop where
  handlers : node.handlers = lastHandlers routes []
  /- Under a static segment stands the tree of what is behind it, if there is anything. -/
  static : ∀ seg, ¬ IsParam seg → seg ≠ [] →
    (node.staticMap seg = none ∧ behind seg routes = []) ∨
    ∃ c, node.staticMap seg = some c ∧ behind seg routes ≠ [] ∧
      Tree (seg = star) (behind seg routes) c
  reserved : ∀ seg, IsParam seg → node.staticMap seg = none
  param : (node.paramChild = none ∧ ∀ seg, IsParam seg → behind seg routes = []) ∨
    ∃ name c, node.paramChild = some (name, c) ∧ behind (58 :: name) routes ≠ [] ∧
      Tree false (behind (58 :: name) routes) c ∧
      ∀ seg, IsParam seg → seg ≠ 58 :: name → behind seg routes = []

theorem behind_end (seg : Bytes) (routes : List (Route H)) (hs : List H) :
    behind seg (routes ++ [⟨[], hs⟩]) = behind seg routes := by
  rw [behind_append]
  exact append_nil _

theorem behind_same (seg : Bytes) (segs : List Bytes) (routes : List (Route H)) (hs : List H) :
    behind seg (routes ++ [⟨seg :: segs, hs⟩]) = behind seg routes ++ [⟨segs, hs⟩] := by
  rw [behind_append]
  simp [behind]

variable {p : Bytes}

theorem behind_other (h : seg ≠ p) (segs : List Bytes) (routes : List (Route H)) (hs : List H) :
    behind seg (routes ++ [⟨p :: segs, hs⟩]) = behind seg routes := by
  rw [behind_append]
  simp [behind, Ne.symm h]

theorem Shape.end (h : Shape routes node) (hs : List H) :
    Shape (routes ++ [⟨[], hs⟩]) (node.setHandlers hs) := by
  cases node
  constructor
  · rw [lastHandlers_append]
    rfl
  · intro seg hseg hne
    rw [behind_end]
    exact h.static seg hseg hne
  · exact h.reserved
  · simp only [behind_end]
    exact h.param

theorem param_split (h : IsParam p) : p = 58 :: p.tail := by
  cases p with
  | nil => cases h
  | cons c p => rw [some.inj h, tail_cons]

theorem lastHandlers_cons (routes : List (Route H)) (p : Bytes) (ps : List Bytes) (hs : List H) :
    lastHandlers (routes ++ [⟨p :: ps, hs⟩]) [] = lastHandlers routes [] := by
  rw [lastHandlers_append, if_neg (cons_ne_nil p ps)]

variable {ps : List Bytes}

theorem Shape.param_step {after : RNode H} {hs : List H} (h : Shape routes node) (hp : IsParam p)
    (hrun : insert hs (p :: ps) node = (after, true)) :
    Shape (routes ++ [⟨p :: ps, hs⟩]) after := by
  have hsplit := param_split hp
  rw [IsParam] at hp
  rw [insert, if_pos hp] at hrun
  dsimp only at hrun
  split_ifs at hrun with hname
  · cases hrun
  · -- the child of this name, with what was behind the segment
    have hchild : ∃ c, node.getOrAddParamChild p.tail = some c ∧ Tree false (behind p routes) c ∧
        ∀ seg, IsParam seg → seg ≠ p → behind seg routes = [] := by
      rcases h.param with ⟨hnone, hempty⟩ | ⟨name, c, hsome, -, htree, hothers⟩
      · refine ⟨.create, by rw [RNode.getOrAddParamChild, hnone], ?_, ?_⟩
        · rw [hempty p hp]
          rfl
        · intro seg hseg _
          exact hempty seg hseg
      · rw [RNode.getOrAddParamChild, hsome] at hrun ⊢
        dsimp only at hrun ⊢
        by_cases heq : name = p.tail
        · rw [heq, ← hsplit] at htree hothers
          rw [if_pos heq]
          exact ⟨c, rfl, htree, hothers⟩
        · rw [if_neg heq] at hrun
          cases hrun
    obtain ⟨c, hget, htree, hothers⟩ := hchild
    rw [hget] at hrun
    dsimp only at hrun
    obtain ⟨hafter, hdone⟩ := Prod.mk.inj hrun
    have hnext : Tree false (behind p routes ++ [⟨ps, hs⟩]) (insert hs ps c).1 :=
      tree_append.mpr ⟨c, htree, Prod.ext rfl hdone⟩
    rw [← hafter]
    cases node
    constructor
    · rw [lastHandlers_cons]
      exact h.handlers
    · intro seg hseg hne
      have hneq : seg ≠ p := by
        rintro rfl
        exact hseg hp
      rw [behind_other hneq]
      exact h.static seg hseg hne
    · exact h.reserved
    · right
      refine ⟨p.tail, _, rfl, ?_⟩
      rw [← hsplit, behind_same]
      refine ⟨by simp, hnext, ?_⟩
      intro seg hseg hneq
      rw [behind_other hneq]
      exact hothers seg hseg hneq

theorem Shape.static_step {after : RNode H} {hs : List H} (h : Shape routes node) (hp : ¬ IsParam p)
    (hne : p ≠ []) (hrun : insert hs (p :: ps) node = (after, true)) :
    Shape (routes ++ [⟨p :: ps, hs⟩]) after := by
  rw [IsParam] at hp
  rw [insert, if_neg hp] at hrun
  dsimp only at hrun
  have hchild : Tree (p = star) (behind p routes) (if p = star then
      ((node.findStaticChild p).getD .create).setSplat else
        (node.findStaticChild p).getD .create) := by
    rw [RNode.findStaticChild, if_neg hne]
    rcases h.static p hp hne with ⟨hnone, hempty⟩ | ⟨c, hsome, -, htree⟩
    · rw [hnone, hempty]
      split_ifs with hstar
      · rw [decide_eq_true hstar]
        rfl
      · rw [decide_eq_false hstar]
        rfl
    · rw [hsome]
      have hsplat := tree_isSplat htree
      split_ifs with hstar
      · rw [decide_eq_true hstar] at hsplat
        cases c
        cases hsplat
        exact htree
      · exact htree
  obtain ⟨hafter, hdone⟩ := Prod.mk.inj hrun
  have hnext := (tree_append (r := ⟨ps, hs⟩)).mpr ⟨_, hchild, Prod.ext rfl hdone⟩
  rw [← hafter]
  cases node
  constructor
  · rw [lastHandlers_cons]
    exact h.handlers
  · intro seg hseg hne'
    by_cases hsame : seg = p
    · right
      rw [hsame, behind_same]
      exact ⟨_, if_pos rfl, by simp, hnext⟩
    · rw [behind_other hsame]
      rcases h.static seg hseg hne' with ⟨hnone, hempty⟩ | ⟨c, hsome, hfull⟩
      · exact .inl ⟨(if_neg hsame).trans hnone, hempty⟩
      · exact .inr ⟨c, (if_neg hsame).trans hsome, hfull⟩
  · intro seg hseg
    have hneq : seg ≠ p := by
      rintro rfl
      exact hp hseg
    exact (if_neg hneq).trans (h.reserved seg hseg)
  · have hkeep : ∀ seg, IsParam seg →
        behind seg (routes ++ [⟨p :: ps, hs⟩]) = behind seg routes := by
      intro seg hseg
      apply behind_other
      rintro rfl
      exact hp hseg
    rcases h.param with ⟨hnone, hempty⟩ | ⟨name, c, hsome, hfull, htree, hothers⟩
    · left
      refine ⟨hnone, ?_⟩
      intro seg hseg
      rw [hkeep seg hseg, hempty seg hseg]
    · right
      refine ⟨name, c, hsome, ?_⟩
      have hname : IsParam (58 :: name) := rfl
      rw [hkeep _ hname]
      refine ⟨hfull, htree, ?_⟩
      intro seg hseg hneq
      rw [hkeep seg hseg, hothers seg hseg hneq]

theorem shape_of_tree (hproper : ∀ r ∈ routes, [] ∉ r.segs) (h : Tree splat routes node) :
    Shape routes node := by
  induction routes using List.reverseRecOn generalizing node with
  | nil =>
    cases h
    exact ⟨rfl, fun _ _ _ => .inl ⟨rfl, rfl⟩, fun _ _ => rfl, .inl ⟨rfl, fun _ _ => rfl⟩⟩
  | append_singleton routes r ih =>
    obtain ⟨before, hbefore, hlast⟩ := tree_append.mp h
    have hshape := ih (fun x hx => hproper x (mem_append_left _ hx)) hbefore
    have hr := hproper r (mem_append_right _ (mem_singleton_self r))
    obtain ⟨segs, hs⟩ := r
    cases segs with
    | nil =>
      cases hlast
      exact hshape.end hs
    | cons p ps =>
      by_cases hp : IsParam p
      · exact hshape.param_step hp hlast
      · have hne : p ≠ [] := by
          rintro rfl
          exact hr (mem_cons_self ..)
        exact hshape.static_step hp hne hlast

theorem proper_behind (h : ∀ r ∈ routes, [] ∉ r.segs) : ∀ r ∈ behind seg routes, [] ∉ r.segs := by
  intro r hr hnil
  exact h _ (mem_behind.mp hr) (mem_cons_of_mem _ hnil)

theorem offers_nil (hseg : ¬ IsParam seg) : Offers routes [] seg ↔ behind seg routes ≠ [] := by
  constructor
  · rintro ⟨-, r, hr, back, hsplit⟩
    rw [nil_append] at hsplit
    have hmem : (⟨back, r.handlers⟩ : Route H) ∈ behind seg routes := by
      rw [mem_behind]
      dsimp only
      rw [← hsplit]
      exact hr
    exact ne_nil_of_mem hmem
  · intro hne
    obtain ⟨r, hr⟩ := exists_mem_of_ne_nil _ hne
    exact ⟨hseg, _, mem_behind.mp hr, r.segs, rfl⟩

theorem offers_cons {front : List Bytes} :
    Offers routes (p :: front) seg ↔ Offers (behind p routes) front seg := by
  constructor
  · rintro ⟨hseg, r, hr, back, hsplit⟩
    refine ⟨hseg, ⟨front ++ seg :: back, r.handlers⟩, mem_behind.mpr ?_, back, rfl⟩
    dsimp only
    rw [← cons_append, ← hsplit]
    exact hr
  · rintro ⟨hseg, r, hr, back, hsplit⟩
    refine ⟨hseg, _, mem_behind.mp hr, back, ?_⟩
    dsimp only
    rw [hsplit, cons_append]

theorem firstChoice_cons {s : Bytes} {ss : List Bytes} : FirstChoice routes (p :: ps) (s :: ss) ↔
      ((p ≠ s → ¬ Offers routes [] s) ∧ (IsParam p → ¬ Offers routes [] star) ∧
        (p = star → s = star → ps = [] → ss = [])) ∧ FirstChoice (behind p routes) ps ss := by
  constructor
  · intro h
    refine ⟨?_, ?_⟩
    · obtain ⟨hother, hparam, hstar⟩ := h [] p ps rfl s rfl
      refine ⟨hother, hparam, ?_⟩
      intro hp hs hps
      have hlen := hstar hp hs hps
      rw [hps, length_cons, length_cons] at hlen
      exact eq_nil_of_length_eq_zero (by simpa using hlen)
    · intro front q back hsplit t ht
      obtain ⟨hother, hparam, hstar⟩ :=
        h (p :: front) q back (by rw [hsplit, cons_append]) t ht
      rw [offers_cons] at hother hparam
      exact ⟨hother, hparam, fun hq ht hback => by simpa using hstar hq ht hback⟩
  · rintro ⟨⟨hother, hparam, hstar⟩, hrest⟩ front q back hsplit t ht
    cases front with
    | nil =>
      cases hsplit
      cases ht
      refine ⟨hother, hparam, ?_⟩
      intro hp hs hps
      rw [hstar hp hs hps, hps]
      rfl
    | cons p' front =>
      obtain ⟨rfl, hps⟩ := List.cons.inj hsplit
      obtain ⟨hother', hparam', hstar'⟩ := hrest front q back hps t ht
      rw [← offers_cons] at hother' hparam'
      exact ⟨hother', hparam', fun hq ht hback => by simpa using hstar' hq ht hback⟩

theorem walk_cons (node : RNode H) (hne : seg ≠ []) (rest : List Bytes) :
    walk (seg :: rest) node = match node.staticMap seg with
      | some c => walk rest c
      | none =>
        match (node.staticMap star).filter RNode.isSplat with
        | some c => some (c, [])
        | none =>
          match node.paramChild with
          | some (name, c) => (walk rest c).map fun r => (r.1, (name, seg) :: r.2)
          | none => none := by
  have hstar : ¬ star = [] := by decide
  have hwalk := Eq.refl (walk (seg :: rest) node)
  conv_rhs at hwalk =>
    rw [walk, RNode.findStaticChild, RNode.findStaticChild, if_neg hne, if_neg hstar]
  exact hwalk

theorem splat_there {c : RNode H} (h : Shape routes node) (hc : node.staticMap star = some c) :
    (node.staticMap star).filter RNode.isSplat = some c ∧ Tree true (behind star routes) c ∧
      behind star routes ≠ [] := by
  rcases h.static star (by decide) (by decide) with ⟨hnone, -⟩ | ⟨c', hsome, hfull, htree⟩
  · rw [hnone] at hc
    cases hc
  · rw [hsome] at hc
    cases hc
    rw [decide_eq_true rfl] at htree
    rw [hsome, filter_some, if_pos (tree_isSplat htree)]
    exact ⟨rfl, htree, hfull⟩

theorem behind_nil_of_none (h : Shape routes node) (hne : seg ≠ [])
    (hnone : node.staticMap seg = none) : ¬ Offers routes [] seg := by
  intro hoffers
  rcases h.static seg hoffers.1 hne with ⟨-, hempty⟩ | ⟨c, hsome, -⟩
  · exact (offers_nil hoffers.1).mp hoffers hempty
  · rw [hnone] at hsome
    cases hsome

theorem none_of_not_offers (h : Shape routes node) (hne : seg ≠ []) (hno : ¬ Offers routes [] seg) :
    node.staticMap seg = none := by
  by_cases hparam : IsParam seg
  · exact h.reserved seg hparam
  · rcases h.static seg hparam hne with ⟨hnone, -⟩ | ⟨c, -, hfull, -⟩
    · exact hnone
    · exact (hno ((offers_nil hparam).mpr hfull)).elim

theorem matchSegments_static {s : Bytes} {ss : List Bytes} (hp : ¬ IsParam p)
    (hlast : p = star → ps = [] → ss = []) :
    matchSegments (p :: ps) (s :: ss) = if p = s ∨ p = star ∧ ps = [] then matchSegments ps ss
      else none := by
  rw [matchSegments, if_neg hp]
  by_cases hstar : p = star ∧ ps = []
  · rw [if_pos hstar, if_pos (.inr hstar), hlast hstar.1 hstar.2, hstar.2]
    rfl
  · rw [if_neg hstar]
    simp only [hstar, or_false]

theorem star_ne : star ≠ [] := by decide

theorem star_static : ¬ IsParam star := by decide

theorem walk_sound {found : RNode H} {path : List Bytes} {params : List (Bytes × Bytes)}
    (hproper : ∀ r ∈ routes, [] ∉ r.segs) (hpath : [] ∉ path) (htree : Tree splat routes node)
    (hwalk : walk path node = some (found, params)) :
    ∃ q, matchSegments q path = some params ∧ FirstChoice routes q path ∧
      found.handlers = lastHandlers routes q := by
  induction path generalizing splat routes node params with
  | nil =>
    cases hwalk
    exact ⟨[], rfl, fun _ _ _ h => by simp at h, (shape_of_tree hproper htree).handlers⟩
  | cons seg rest ih =>
    have hshape := shape_of_tree hproper htree
    have hne : seg ≠ [] := fun h => hpath (h ▸ mem_cons_self ..)
    have hrest : [] ∉ rest := fun h => hpath (mem_cons_of_mem _ h)
    rw [walk_cons node hne] at hwalk
    cases hstatic : node.staticMap seg with
    | some c =>
      rw [hstatic] at hwalk
      have hseg : ¬ IsParam seg := by
        intro hparam
        rw [hshape.reserved seg hparam] at hstatic
        cases hstatic
      rcases hshape.static seg hseg hne with ⟨hnone, -⟩ | ⟨c', hsome, -, hdown⟩
      · rw [hnone] at hstatic
        cases hstatic
      · rw [hstatic] at hsome
        cases hsome
        obtain ⟨q, hmatch, hfirst, hhandlers⟩ := ih (proper_behind hproper) hrest hdown hwalk
        have hlast : q = [] → rest = [] := by
          rintro rfl
          cases rest with
          | nil => rfl
          | cons => cases hmatch
        refine ⟨seg :: q, ?_, ?_, ?_⟩
        · rw [matchSegments_static hseg fun _ => hlast, if_pos (.inl rfl)]
          exact hmatch
        · rw [firstChoice_cons]
          exact ⟨⟨fun h => (h rfl).elim, fun h => (hseg h).elim, fun _ _ => hlast⟩, hfirst⟩
        · rw [hhandlers, lastHandlers_behind]
    | none =>
      have hno := behind_nil_of_none hshape hne hstatic
      rw [hstatic] at hwalk
      dsimp only at hwalk
      cases hstar : node.staticMap star with
      | some c =>
        obtain ⟨hfilter, hdown, -⟩ := splat_there hshape hstar
        rw [hfilter] at hwalk
        cases hwalk
        have hother : seg ≠ star := by
          rintro rfl
          rw [hstatic] at hstar
          cases hstar
        refine ⟨[star], ?_, ?_, ?_⟩
        · rw [matchSegments, if_neg star_static, if_pos ⟨rfl, rfl⟩]
        · rw [firstChoice_cons]
          refine ⟨⟨fun _ => hno, fun h => (star_static h).elim, fun _ h => (hother h).elim⟩, ?_⟩
          exact fun _ _ _ h => by simp at h
        · rw [(shape_of_tree (proper_behind hproper) hdown).handlers, lastHandlers_behind]
      | none =>
        have hnostar := behind_nil_of_none hshape star_ne hstar
        rw [hstar] at hwalk
        dsimp only [filter_none] at hwalk
        rcases hshape.param with ⟨hnone, -⟩ | ⟨name, c, hsome, -, hdown, -⟩
        · rw [hnone] at hwalk
          cases hwalk
        · rw [hsome] at hwalk
          obtain ⟨⟨found', params'⟩, hwalk', heq⟩ := map_eq_some_iff.mp hwalk
          cases heq
          obtain ⟨q, hmatch, hfirst, hhandlers⟩ := ih (proper_behind hproper) hrest hdown hwalk'
          have hname : IsParam (58 :: name) := rfl
          refine ⟨(58 :: name) :: q, ?_, ?_, ?_⟩
          · rw [matchSegments, if_pos hname, hmatch]
            rfl
          · rw [firstChoice_cons]
            refine ⟨⟨fun _ => hno, fun _ => hnostar, ?_⟩, hfirst⟩
            intro hbad
            cases hbad
          · rw [hhandlers, lastHandlers_behind]

theorem walk_complete {path q : List Bytes} (hproper : ∀ r ∈ routes, [] ∉ r.segs)
    (hpath : [] ∉ path) (htree : Tree splat routes node) {hs : List H} (hadded : ⟨q, hs⟩ ∈ routes)
    (hmatch : (matchSegments q path).isSome) (hfirst : FirstChoice routes q path) :
    ∃ found params, walk path node = some (found, params) ∧
      found.handlers = lastHandlers routes q := by
  induction path generalizing splat routes node q with
  | nil =>
    cases q with
    | nil => exact ⟨node, [], rfl, (shape_of_tree hproper htree).handlers⟩
    | cons p ps => cases hmatch
  | cons seg rest ih =>
    cases q with
    | nil => cases hmatch
    | cons p ps =>
      have hshape := shape_of_tree hproper htree
      have hne : seg ≠ [] := fun h => hpath (h ▸ mem_cons_self ..)
      have hrest : [] ∉ rest := fun h => hpath (mem_cons_of_mem _ h)
      have hpne : p ≠ [] := fun h => hproper _ hadded (h ▸ mem_cons_self ..)
      have hmem : (⟨ps, hs⟩ : Route H) ∈ behind p routes := mem_behind.mpr hadded
      have hfull : behind p routes ≠ [] := ne_nil_of_mem hmem
      obtain ⟨⟨hother, hparam, hlast⟩, hdownChoice⟩ := firstChoice_cons.mp hfirst
      rw [walk_cons node hne]
      by_cases hp : IsParam p
      · have hnone : node.staticMap seg = none := by
          by_cases hsame : p = seg
          · exact hshape.reserved seg (hsame ▸ hp)
          · exact none_of_not_offers hshape hne (hother hsame)
        rw [hnone, none_of_not_offers hshape star_ne (hparam hp)]
        rw [matchSegments, if_pos hp, isSome_map] at hmatch
        rcases hshape.param with ⟨-, hempty⟩ | ⟨name, c, hsome, -, hdown, hothers⟩
        · exact (hfull (hempty p hp)).elim
        · have hname : p = 58 :: name := by
            by_contra hneq
            exact hfull (hothers p hp hneq)
          rw [← hname] at hdown
          obtain ⟨found, params, hwalk, hhandlers⟩ :=
            ih (proper_behind hproper) hrest hdown hmem hmatch hdownChoice
          refine ⟨found, (name, seg) :: params, ?_, ?_⟩
          · rw [hsome]
            dsimp only [filter_none]
            rw [hwalk]
            rfl
          · rw [hhandlers, lastHandlers_behind]
      · by_cases hsame : p = seg
        · have hend : p = star → ps = [] → rest = [] := fun h => hlast h (hsame ▸ h)
          rw [matchSegments_static hp hend, if_pos (.inl hsame)] at hmatch
          rcases hshape.static p hp hpne with ⟨-, hempty⟩ | ⟨c, hsome, -, hdown⟩
          · exact (hfull hempty).elim
          · obtain ⟨found, params, hwalk, hhandlers⟩ :=
              ih (proper_behind hproper) hrest hdown hmem hmatch hdownChoice
            refine ⟨found, params, ?_, ?_⟩
            · rw [← hsame, hsome]
              exact hwalk
            · rw [hhandlers, lastHandlers_behind]
        · rw [none_of_not_offers hshape hne (hother hsame)]
          have hstar : p = star ∧ ps = [] := by
            by_contra hno
            rw [matchSegments, if_neg hp, if_neg hno, if_neg hsame] at hmatch
            cases hmatch
          obtain ⟨rfl, rfl⟩ := hstar
          rcases hshape.static star hp hpne with ⟨-, hempty⟩ | ⟨c, hsome, -, hdown⟩
          · exact (hfull hempty).elim
          · obtain ⟨hfilter, -, -⟩ := splat_there hshape hsome
            refine ⟨c, [], ?_, ?_⟩
            · dsimp only
              rw [hfilter]
            · rw [(shape_of_tree (proper_behind hproper) hdown).handlers, lastHandlers_behind]

end Voxlib.Router

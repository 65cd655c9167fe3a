import Intake.Account
import Intake.Proofs.Arena

/-!
# How an account lies in its arena

The texts of an account and its interests share one arena. A text that is set is written at the cursor,
so it is apart from everything before it, and an interest that is pushed makes the stretch from the
last fencepost to the cursor. The posts are sorted, hence no text has to be compared with an interest:
each text lies before the first post or behind the last one.
-/

namespace Intake

/-! ### Fenceposts -/

/-- The stretches from each post to the next. -/
def stretches (posts : List Nat) : List Span := posts.zipWith Span.between posts.tail

section Stretches

variable {posts : List Nat} {span : Span}

theorem stretches_cons (p q : Nat) (posts : List Nat) :
    stretches (p :: q :: posts) = Span.between p q :: stretches (q :: posts) := rfl

theorem length_stretches (posts : List Nat) : (stretches posts).length = posts.length - 1 := by
  rw [stretches, List.length_zipWith, List.length_tail]
  omega

theorem getElem?_stretches (posts : List Nat) (i : Nat) : (stretches posts)[i]? =
    posts[i]?.bind fun start => posts[i + 1]?.map (Span.between start) := by
  rw [stretches, List.getElem?_zipWith', List.getElem?_tail]
  cases posts[i]? <;> cases posts[i + 1]? <;> rfl

theorem mem_of_mem_stretches (hsorted : posts.Pairwise (· ≤ ·)) (h : span ∈ stretches posts) :
    span.offset ∈ posts ∧ span.stop ∈ posts := by
  induction posts with
  | nil => cases h
  | cons p posts ih =>
      cases posts with
      | nil => cases h
      | cons q posts =>
          obtain ⟨hp, hrest⟩ := List.pairwise_cons.1 hsorted
          rw [stretches_cons, List.mem_cons] at h
          rcases h with rfl | h
          · rw [Span.stop_between (hp q List.mem_cons_self)]
            exact ⟨List.mem_cons_self, List.mem_cons_of_mem _ List.mem_cons_self⟩
          · obtain ⟨hoffset, hstop⟩ := ih hrest h
            exact ⟨List.mem_cons_of_mem _ hoffset, List.mem_cons_of_mem _ hstop⟩

theorem pairwise_stretches (hsorted : posts.Pairwise (· ≤ ·)) :
    (stretches posts).Pairwise Span.Apart := by
  induction posts with
  | nil => exact .nil
  | cons p posts ih =>
      cases posts with
      | nil => exact .nil
      | cons q posts =>
          obtain ⟨hp, hrest⟩ := List.pairwise_cons.1 hsorted
          rw [stretches_cons]
          refine .cons (fun span hspan => .inl ?_) (ih hrest)
          have hoffset := (mem_of_mem_stretches hrest hspan).1
          rw [Span.stop_between (hp q List.mem_cons_self)]
          rcases List.mem_cons.1 hoffset with heq | hmem
          · exact Nat.le_of_eq heq.symm
          · exact (List.pairwise_cons.1 hrest).1 _ hmem

end Stretches

/-! ### Texts and posts -/

/-- Where the texts and the fenceposts are, in an arena that is written up to `cursor`. -/
structure Layout (texts : TextField → Span) (posts : List Nat) (cursor : Nat) : Prop where
  within : ∀ field, (texts field).Within cursor
  apart : ∀ field other, field ≠ other → (texts field).Apart (texts other)
  post_le : ∀ post ∈ posts, post ≤ cursor
  sorted : posts.Pairwise (· ≤ ·)
  length_ne_one : posts.length ≠ 1
  beside : ∀ field,
    (∀ post ∈ posts, (texts field).stop ≤ post) ∨ ∀ post ∈ posts, post ≤ (texts field).offset

/-- While interests are read they end at the cursor, and no text lies behind the first of them. -/
structure Filling (texts : TextField → Span) (posts : List Nat) (cursor : Nat) : Prop
    extends Layout texts posts cursor where
  ends : posts = [] ∨ posts.getLast? = some cursor
  before : ∀ field, texts field = .absent ∨ ∀ post ∈ posts, (texts field).stop ≤ post

section Layout

variable {texts : TextField → Span} {posts : List Nat} {cursor next : Nat}

theorem layout_absent (cursor : Nat) : Layout (fun _ => .absent) [] cursor where
  within _ := .inl rfl
  apart _ _ _ := .inl (Nat.le_refl _)
  post_le _ h := absurd h List.not_mem_nil
  sorted := .nil
  length_ne_one := by decide
  beside _ := .inl fun _ h => absurd h List.not_mem_nil

theorem Layout.mono (h : Layout texts posts cursor) (hle : cursor ≤ next) :
    Layout texts posts next where
  within field := (h.within field).mono hle
  apart := h.apart
  post_le post hpost := Nat.le_trans (h.post_le post hpost) hle
  sorted := h.sorted
  length_ne_one := h.length_ne_one
  beside := h.beside

/-- A text that is written at the cursor is apart from all that is there. -/
theorem Layout.setText (h : Layout texts posts cursor) (field : TextField) (hle : cursor ≤ next)
    (hnext : next ≤ Span.absentOffset) :
    Layout (fun other => if other = field then .between cursor next else texts other) posts next := by
  have hstop : (Span.between cursor next).stop = next := Span.stop_between hle
  have hnew (other : TextField) : (texts other).Apart (.between cursor next) :=
    (h.within other).apart (by rw [hstop]; exact hnext)
  constructor
  case within =>
    intro other
    by_cases hother : other = field
    · rw [if_pos hother]
      exact .inr (Nat.le_of_eq hstop)
    · rw [if_neg hother]
      exact (h.within other).mono hle
  case apart =>
    intro f g hne
    by_cases hf : f = field
    · have hg : g ≠ field := fun hg => hne (hf.trans hg.symm)
      rw [if_pos hf, if_neg hg]
      exact (hnew g).symm
    · rw [if_neg hf]
      by_cases hg : g = field
      · rw [if_pos hg]
        exact hnew f
      · rw [if_neg hg]
        exact h.apart f g hne
  case post_le => exact fun post hpost => Nat.le_trans (h.post_le post hpost) hle
  case sorted => exact h.sorted
  case length_ne_one => exact h.length_ne_one
  case beside =>
    intro other
    by_cases hother : other = field
    · rw [if_pos hother]
      exact .inr h.post_le
    · rw [if_neg hother]
      exact h.beside other

theorem Layout.clear (h : Layout texts posts cursor) : Filling texts [] cursor where
  within := h.within
  apart := h.apart
  post_le _ hpost := absurd hpost List.not_mem_nil
  sorted := .nil
  length_ne_one := by decide
  beside _ := .inl fun _ hpost => absurd hpost List.not_mem_nil
  ends := .inl rfl
  before _ := .inr fun _ hpost => absurd hpost List.not_mem_nil

theorem Filling.extend (h : Filling texts posts cursor) {more : List Nat} (hle : cursor ≤ next)
    (hnext : next ≤ Span.absentOffset) (hmore : ∀ post ∈ more, post = cursor ∨ post = next)
    (hsorted : more.Pairwise (· ≤ ·)) (hlength : 2 ≤ (posts ++ more).length)
    (hlast : (posts ++ more).getLast? = some next) : Filling texts (posts ++ more) next := by
  have hbetween : ∀ post ∈ more, cursor ≤ post ∧ post ≤ next := by
    intro post hpost
    rcases hmore post hpost with rfl | rfl
    · exact ⟨Nat.le_refl _, hle⟩
    · exact ⟨hle, Nat.le_refl _⟩
  have hpost : ∀ post ∈ posts ++ more, post ≤ next := by
    intro post hmem
    rcases List.mem_append.1 hmem with hold | hnew
    · exact Nat.le_trans (h.post_le post hold) hle
    · exact (hbetween post hnew).2
  have hbefore (field : TextField) :
      texts field = .absent ∨ ∀ post ∈ posts ++ more, (texts field).stop ≤ post := by
    rcases h.before field with habsent | hbefore
    · exact .inl habsent
    rcases h.within field with habsent | hstop
    · exact .inl habsent
    refine .inr fun post hmem => ?_
    rcases List.mem_append.1 hmem with hold | hnew
    · exact hbefore post hold
    · exact Nat.le_trans hstop (hbetween post hnew).1
  constructor
  case toLayout =>
    constructor
    case within => exact fun field => (h.within field).mono hle
    case apart => exact h.apart
    case post_le => exact hpost
    case sorted =>
      refine List.pairwise_append.2 ⟨h.sorted, hsorted, fun p hp q hq => ?_⟩
      exact Nat.le_trans (h.post_le p hp) (hbetween q hq).1
    case length_ne_one => omega
    case beside =>
      intro field
      rcases hbefore field with habsent | hbefore
      · rw [habsent]
        exact .inr fun post hmem => Nat.le_trans (hpost post hmem) hnext
      · exact .inl hbefore
  case ends => exact .inr hlast
  case before => exact hbefore

end Layout

theorem Account.toList_pushInterest (a : Account) (span : Span) :
    (a.pushInterest span).interestPosts.toList =
      (if a.interestPosts.toList = [] then [span.offset] else a.interestPosts.toList) ++
        [span.stop] := by
  simp only [pushInterest, Array.toList_push, Array.isEmpty_iff, ← Array.toList_eq_nil_iff]
  split <;> rfl

section Write

variable {account : Account} {arena : Arena} (hext : account.arena.Extends arena) (hfits : arena.Fits)
include hext hfits

theorem Layout.write
    (h : Layout account.texts account.interestPosts.toList account.arena.cursor)
    (field : TextField) :
    let written := ({ account with arena } : Account).setText field (arena.finish account.arena.cursor)
    Layout written.texts written.interestPosts.toList written.arena.cursor :=
  h.setText field hext.cursor_le (Nat.le_of_lt hfits.lt_absentOffset)

theorem Filling.push
    (h : Filling account.texts account.interestPosts.toList account.arena.cursor) :
    let pushed := ({ account with arena } : Account).pushInterest (arena.finish account.arena.cursor)
    Filling pushed.texts pushed.interestPosts.toList pushed.arena.cursor := by
  intro pushed
  have hle := hext.cursor_le
  have hmax := Nat.le_of_lt hfits.lt_absentOffset
  have hstop : (arena.finish account.arena.cursor).stop = arena.cursor := Span.stop_between hle
  have hpushed : pushed.interestPosts.toList =
      (if account.interestPosts.toList = [] then [account.arena.cursor]
        else account.interestPosts.toList) ++ [arena.cursor] := by
    rw [Account.toList_pushInterest, hstop]
    rfl
  have harena : pushed.arena = arena := rfl
  rw [hpushed, harena]
  by_cases hposts : account.interestPosts.toList = []
  · have hends : ∀ post ∈ [account.arena.cursor, arena.cursor],
        post = account.arena.cursor ∨ post = arena.cursor := by simp
    rw [if_pos hposts]
    rw [hposts] at h
    exact h.extend hle hmax hends (by simp [hle]) (Nat.le_refl 2) rfl
  · rw [if_neg hposts]
    have hpos := List.length_pos_iff.2 hposts
    refine h.extend hle hmax (by simp) (List.pairwise_singleton _ _) ?_ (by simp)
    rw [List.length_append, List.length_singleton]
    omega

end Write

/-! ### What a caller may rely on -/

/-- What holds of every account that was built by decoding and by hand: its texts and interests are
written stretches of the arena, no two of which share a byte, and its lists are whole. -/
structure Account.Represented (a : Account) : Prop where
  cursor_le : a.arena.cursor ≤ a.arena.capacity
  text : ∀ field, a.texts field = .absent ∨
    (a.texts field).isPresent ∧ (a.texts field).stop ≤ a.arena.cursor
  posts : a.interestPosts = #[] ∨ 0 < a.interestCount ∧ a.interestPosts.size = a.interestCount + 1
  sorted : a.interestPosts.toList.Pairwise (· ≤ ·)
  post_le : ∀ post ∈ a.interestPosts, post ≤ a.arena.cursor
  interest_some : ∀ i < a.interestCount,
    ∃ span, a.interest? i = some span ∧ (a.arena.get? span).isSome
  interest_none : ∀ i, a.interestCount ≤ i → a.interest? i = none
  interests : a.interests.length = a.interestCount ∧
    a.interestSpans.map a.arena.get? = a.interests.map some
  apart : (TextField.all.map a.texts ++ a.interestSpans).Pairwise Span.Apart
  premium : a.premium.start = absentTimestamp ↔ a.premium.finish = absentTimestamp

namespace Account

theorem length_interestSpans (a : Account) : a.interestSpans.length = a.interestCount := by
  rw [interestCount, ← Array.length_toList]
  exact length_stretches _

theorem interest?_eq (a : Account) (i : Nat) : a.interest? i = a.interestSpans[i]? := by
  have hspans : a.interestSpans[i]? = _ := getElem?_stretches a.interestPosts.toList i
  rw [hspans, Array.getElem?_toList, Array.getElem?_toList, interest?]
  cases a.interestPosts[i]? <;> cases a.interestPosts[i + 1]? <;> rfl

end Account

section Represented

variable {a : Account} (h : Layout a.texts a.interestPosts.toList a.arena.cursor)
include h

theorem Layout.pairwise : (TextField.all.map a.texts ++ a.interestSpans).Pairwise Span.Apart := by
  refine List.pairwise_append.2 ⟨?_, pairwise_stretches h.sorted, ?_⟩
  · have hall : TextField.all.Pairwise (· ≠ ·) := by decide
    exact List.pairwise_map.2 (hall.imp fun hne => h.apart _ _ hne)
  · intro text htext span hspan
    obtain ⟨field, -, rfl⟩ := List.mem_map.1 htext
    obtain ⟨hoffset, hstop⟩ := mem_of_mem_stretches h.sorted hspan
    rcases h.beside field with hbefore | hbehind
    · exact .inl (hbefore _ hoffset)
    · exact .inr (hbehind _ hstop)

variable (hfits : a.arena.Fits)
include hfits

theorem Layout.get?_of_mem {span : Span} (hspan : span ∈ a.interestSpans) :
    a.arena.get? span = some (a.arena.view span) := by
  have hle := h.post_le _ (mem_of_mem_stretches h.sorted hspan).2
  obtain ⟨bytes, hbytes⟩ := Option.isSome_iff_exists.1 (Arena.isSome_get? hfits hle).2
  rw [Arena.view, hbytes]
  rfl

theorem Layout.represented
    (hpremium : a.premium.start = absentTimestamp ↔ a.premium.finish = absentTimestamp) :
    a.Represented where
  cursor_le := hfits
  text field := (h.within field).imp_right fun hstop => ⟨(Arena.isSome_get? hfits hstop).1, hstop⟩
  posts := by
    have hne := h.length_ne_one
    rw [Array.length_toList] at hne
    by_cases hnil : a.interestPosts = #[]
    · exact .inl hnil
    · have hpos := Array.size_pos_iff.2 hnil
      refine .inr ?_
      rw [Account.interestCount]
      omega
  sorted := h.sorted
  post_le post hpost := h.post_le post (Array.mem_toList_iff.2 hpost)
  interest_some i hi := by
    rw [← a.length_interestSpans] at hi
    refine ⟨a.interestSpans[i], ?_, ?_⟩
    · rw [a.interest?_eq, List.getElem?_eq_getElem hi]
    · rw [h.get?_of_mem hfits (List.getElem_mem hi)]
      rfl
  interest_none i hi := by
    rw [a.interest?_eq, List.getElem?_eq_none_iff, a.length_interestSpans]
    exact hi
  interests := by
    rw [Account.interests, List.length_map, List.map_map]
    exact ⟨a.length_interestSpans, List.map_congr_left fun span hspan => h.get?_of_mem hfits hspan⟩
  apart := h.pairwise
  premium := hpremium

end Represented

end Intake

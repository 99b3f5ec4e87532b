import Mathlib.Algebra.Group.Int.Defs
import Mathlib.Algebra.Group.Nat.Defs
import Mathlib.Data.List.Nodup
import Mathlib.Logic.Function.Basic
import Mathlib.Order.Basic
import Mathlib.Order.Nat
import Mathlib.Tactic.SplitIfs

/-!
# Runtime control of the P2P engine (`p2p_control.h`)

* `update`, `pack` : a request text against the packed word of slice size and fragment limit.
* `Requests`       : the texts that assign, as a grammar.
* `control_exact`  : what a request does, and what holds after any sequence of them.
-/

namespace FlagCX.P2p.Control
open List Function

inductive Field where
  | slice
  | fragment
  deriving DecidableEq, Repr

def Field.key : Field → List Char
  | .slice => "FLAGCX_P2P_SLICE_SIZE".toList
  | .fragment => "FLAGCX_P2P_FRAGMENT_LIMIT".toList

def kMaxSliceSize : Nat := 2 ^ 30

def pack (slice fragment : Nat) : Nat := slice <<< 32 ||| (if fragment < slice then fragment else slice)

/-- The text before the first `c`, and what follows it. -/
def cut (c : Char) : List Char → List Char × Option (List Char)
  | [] => ([], none)
  | x :: xs => if x = c then ([], some xs) else (x :: (cut c xs).1, (cut c xs).2)

/-- The pieces that `find` and `substr` cut at the newlines; a newline at the end starts no line. -/
def lines : List Char → List (List Char)
  | [] => []
  | c :: cs =>
    if c = '\n' then [] :: lines cs
    else match lines cs with
      | [] => [[c]]
      | line :: rest => (c :: line) :: rest

/-- The digits of a value; `wrap` is what 64 bits keep of a number. -/
def parseValue (wrap : Nat → Nat) : List Char → Nat → Except String Nat
  | [], value => .ok value
  | c :: cs, value =>
    if c < '0' ∨ '9' < c then .error "value must be an unsigned decimal integer"
    else if kMaxSliceSize < wrap (value * 10 + (c.toNat - '0'.toNat)) then .error "value exceeds 1 GiB"
    else parseValue wrap cs (wrap (value * 10 + (c.toNat - '0'.toNat)))

/-- The two fields, and the ones assigned so far. -/
structure Parsed where
  value : Field → Nat
  seen : List Field

def assign (wrap : Nat → Nat) (s : Parsed) (line : List Char) : Except String Parsed :=
  match cut '=' line with
  | (_, none) => .error "expected KEY=decimal"
  | (key, some digits) =>
    match [Field.slice, .fragment].find? (·.key = key) with
    | none => .error "parameter is not runtime tunable"
    | some field =>
      if field ∈ s.seen then .error "duplicate parameter"
      else if digits = [] then .error "missing value"
      else (parseValue wrap digits 0).map fun value =>
        ⟨Function.update s.value field (value % 2 ^ 32), field :: s.seen⟩

def current (config : Nat) : Field → Nat
  | .slice => config >>> 32 % 2 ^ 32
  | .fragment => config % 2 ^ 32

def updateWith (wrap : Nat → Nat) (config : Nat) (request : List Char) : Option String × Nat :=
  if request = "GET".toList then (none, config)
  else match (lines request).foldlM (assign wrap) ⟨current config, []⟩ with
    | .error error => (some error, config)
    | .ok s =>
      if s.seen = [] then (some "empty request", config)
      else (none, pack (s.value .slice) (s.value .fragment))

/-- The error, if any, and the word that is stored. -/
def update (config : Nat) (request : List Char) : Option String × Nat := updateWith (· % 2 ^ 64) config request

def clampParam (v lo hi deft : Int) : Int := if v < lo ∨ hi < v then deft else v

/-- The word of a new engine, from `FLAGCX_P2P_SLICE_SIZE` and `FLAGCX_P2P_FRAGMENT_LIMIT`. -/
def initial (slice fragment : Int) : Nat :=
  let sliceSize := clampParam slice 0 (2 ^ 30) (2 ^ 30)
  pack sliceSize.toNat (clampParam fragment 0 sliceSize 4096).toNat

/-! ## The grammar -/

structure Assignment where
  field : Field
  digits : List Char

def decimal (v : Nat) (digits : List Char) : Nat := digits.foldl (fun v c => v * 10 + (c.toNat - '0'.toNat)) v

namespace Assignment

def text (a : Assignment) : List Char := a.field.key ++ '=' :: a.digits

def value (a : Assignment) : Nat := decimal 0 a.digits

structure Valid (a : Assignment) : Prop where
  some : a.digits ≠ []
  digits : ∀ c ∈ a.digits, '0' ≤ c ∧ c ≤ '9'
  le : a.value ≤ kMaxSliceSize

end Assignment

/-- One or two assignments to different fields, a line each; the last line may end with a newline. -/
structure Requests (as : List Assignment) (request : List Char) : Prop where
  some : as ≠ []
  distinct : (as.map (·.field)).Nodup
  valid : ∀ a ∈ as, a.Valid
  text : request = ['\n'].intercalate (as.map (·.text)) ∨ request = ['\n'].intercalate (as.map (·.text)) ++ ['\n']

/-- The value the assignments give to a field. -/
def named (as : List Assignment) (field : Field) : Option Nat := (as.find? (·.field = field)).map (·.value)

/-! ## Texts -/

variable {c : Char} {l a b : List Char} {wrap : Nat → Nat} {v r : Nat}

theorem cut_none (h : c ∉ l) : cut c l = (l, none) := by
  induction l with
  | nil => rfl
  | cons x xs ih =>
    rw [mem_cons, not_or] at h
    rw [cut, if_neg (Ne.symm h.1), ih h.2]

theorem cut_some (h : c ∉ a) : cut c (a ++ c :: b) = (a, some b) := by
  induction a with
  | nil => exact if_pos rfl
  | cons x xs ih =>
    rw [mem_cons, not_or] at h
    rw [cons_append, cut, if_neg (Ne.symm h.1), ih h.2]

theorem lines_append (h : '\n' ∉ a) : lines (a ++ '\n' :: b) = a :: lines b := by
  induction a with
  | nil => exact if_pos rfl
  | cons x xs ih =>
    rw [mem_cons, not_or] at h
    rw [cons_append, lines, if_neg (Ne.symm h.1), ih h.2]

theorem lines_single (h : '\n' ∉ a) (hne : a ≠ []) : lines a = [a] := by
  induction a with
  | nil => exact absurd rfl hne
  | cons x xs ih =>
    rw [mem_cons, not_or] at h
    rw [lines, if_neg (Ne.symm h.1)]
    by_cases hxs : xs = []
    · rw [hxs, lines]
    · rw [ih h.2 hxs]

theorem lines_intercalate {ls : List (List Char)} (hls : ls ≠ []) (h : ∀ l ∈ ls, '\n' ∉ l ∧ l ≠ []) :
    lines (['\n'].intercalate ls) = ls ∧ lines (['\n'].intercalate ls ++ ['\n']) = ls := by
  induction ls with
  | nil => exact absurd rfl hls
  | cons l ls ih =>
    obtain ⟨hl, hne⟩ := h l mem_cons_self
    cases ls with
    | nil =>
      rw [intercalate_singleton]
      exact ⟨lines_single hl hne, lines_append hl⟩
    | cons l' ls =>
      obtain ⟨h1, h2⟩ := ih (cons_ne_nil _ _) fun x hx => h x (mem_cons_of_mem _ hx)
      rw [intercalate_cons_cons, append_assoc, append_assoc, append_assoc, singleton_append, singleton_append,
        lines_append hl, lines_append hl, h1, h2]
      exact ⟨rfl, rfl⟩

theorem intercalate_lines (text : List Char) :
    text = ['\n'].intercalate (lines text) ∨ text = ['\n'].intercalate (lines text) ++ ['\n'] := by
  induction text with
  | nil => exact .inl rfl
  | cons c cs ih =>
    rw [lines]
    cases hl : lines cs with
    | nil =>
      have hcs : cs = [] := by
        cases cs with
        | nil => rfl
        | cons x xs =>
          rw [lines] at hl
          split at hl
          · cases hl
          · split at hl <;> cases hl
      rw [hcs]
      split_ifs with hc
      · exact .inr (by rw [hc]; rfl)
      · exact .inl rfl
    | cons l ls =>
      rw [hl] at ih
      split_ifs with hc
      · rw [intercalate_cons_cons, hc, nil_append, append_assoc, singleton_append, singleton_append, cons.injEq, cons.injEq]
        simpa using ih
      · have hcons : ['\n'].intercalate ((c :: l) :: ls) = c :: ['\n'].intercalate (l :: ls) := by
          cases ls with
          | nil => simp
          | cons l' ls => rw [intercalate_cons_cons, intercalate_cons_cons, cons_append, cons_append]
        rw [hcons, cons_append, cons.injEq, cons.injEq]
        simpa using ih

/-! ## Values -/

theorem le_decimal (v : Nat) (l : List Char) : v ≤ decimal v l := by
  induction l generalizing v with
  | nil => exact Nat.le_refl v
  | cons c cs ih =>
    have hle : v ≤ v * 10 + (c.toNat - '0'.toNat) := by omega
    exact hle.trans (ih _)

theorem digit_lt (hv : v ≤ kMaxSliceSize) (hc : ¬ (c < '0' ∨ '9' < c)) : v * 10 + (c.toNat - '0'.toNat) < 2 ^ 64 := by
  have hnine : c.toNat ≤ '9'.toNat := Char.not_lt.1 fun h => hc (.inr h)
  have h9 : '9'.toNat = 57 := rfl
  have hmax : kMaxSliceSize = 2 ^ 30 := rfl
  omega

theorem parseValue_wrap (hwrap : ∀ x < 2 ^ 64, wrap x = x) (hv : v ≤ kMaxSliceSize) :
    parseValue wrap l v = parseValue id l v := by
  induction l generalizing v with
  | nil => rfl
  | cons c cs ih =>
    rw [parseValue, parseValue]
    by_cases hc : c < '0' ∨ '9' < c
    · rw [if_pos hc, if_pos hc]
    · rw [if_neg hc, if_neg hc, hwrap _ (digit_lt hv hc), id]
      split_ifs with hbig
      · rfl
      · exact ih (Nat.not_lt.1 hbig)

theorem parseValue_ok (hv : v ≤ kMaxSliceSize) : parseValue id l v = .ok r ↔
    (∀ c ∈ l, '0' ≤ c ∧ c ≤ '9') ∧ decimal v l = r ∧ r ≤ kMaxSliceSize := by
  induction l generalizing v with
  | nil =>
    have hnil : parseValue id [] v = .ok r ↔ v = r := by simp [parseValue]
    rw [hnil]
    exact ⟨fun h => ⟨nofun, h, h ▸ hv⟩, fun h => h.2.1⟩
  | cons c cs ih =>
    have hdigit : ¬ (c < '0' ∨ '9' < c) ↔ '0' ≤ c ∧ c ≤ '9' := by rw [not_or, Char.not_lt, Char.not_lt]
    rw [parseValue, forall_mem_cons, ← hdigit]
    by_cases hc : c < '0' ∨ '9' < c
    · rw [if_pos hc]
      exact ⟨nofun, fun h => absurd hc h.1.1⟩
    rw [if_neg hc]
    split_ifs with hbig
    · refine ⟨nofun, fun h => absurd hbig ?_⟩
      have hle := le_decimal (v * 10 + (c.toNat - '0'.toNat)) cs
      exact Nat.not_lt.2 (hle.trans (h.2.1.trans_le h.2.2))
    · rw [ih (Nat.not_lt.1 hbig), and_iff_right hc]
      rfl

/-! ## Lines -/

def Parsed.set (s : Parsed) (a : Assignment) : Parsed := ⟨Function.update s.value a.field a.value, a.field :: s.seen⟩

variable {s s' : Parsed} {line : List Char}

theorem not_mem_key (f : Field) : '=' ∉ f.key ∧ '\n' ∉ f.key := by cases f <;> decide

theorem find_key (f : Field) : [Field.slice, .fragment].find? (·.key = f.key) = some f := by cases f <;> decide

theorem assign_wrap (hwrap : ∀ x < 2 ^ 64, wrap x = x) : assign wrap = assign id := by
  funext s line
  unfold assign
  simp only [parseValue_wrap hwrap (Nat.zero_le kMaxSliceSize)]

theorem assign_text {a : Assignment} (ha : a.Valid) (hseen : a.field ∉ s.seen) : assign id s a.text = .ok (s.set a) := by
  have hcut : cut '=' a.text = (a.field.key, some a.digits) := cut_some (not_mem_key a.field).1
  have hvalue : parseValue id a.digits 0 = .ok a.value := (parseValue_ok (Nat.zero_le _)).2 ⟨ha.digits, rfl, ha.le⟩
  have hlt : a.value < 2 ^ 32 := ha.le.trans_lt (by decide)
  rw [assign, hcut]
  dsimp only
  rw [find_key]
  dsimp only
  rw [if_neg hseen, if_neg ha.some, hvalue, Except.map, Nat.mod_eq_of_lt hlt]
  rfl

theorem assign_ok (hok : assign id s line = .ok s') :
    ∃ a : Assignment, a.Valid ∧ a.field ∉ s.seen ∧ line = a.text ∧ s' = s.set a := by
  have h := hok
  by_cases heq : '=' ∈ line
  swap
  · rw [assign, cut_none heq] at h
    cases h
  obtain ⟨key, digits, rfl, hkey⟩ := eq_append_cons_of_mem heq
  rw [assign, cut_some hkey] at h
  dsimp only at h
  cases hf : [Field.slice, .fragment].find? (·.key = key) with
  | none =>
    rw [hf] at h
    cases h
  | some field =>
    obtain rfl : field.key = key := by simpa using find?_some hf
    rw [hf] at h
    dsimp only at h
    split_ifs at h with hseen hdigits
    cases hp : parseValue id digits 0 with
    | error =>
      rw [hp] at h
      cases h
    | ok value =>
      obtain ⟨hall, hvalue, hle⟩ := (parseValue_ok (Nat.zero_le _)).1 hp
      have ha : Assignment.Valid ⟨field, digits⟩ := ⟨hdigits, hall, hvalue.trans_le hle⟩
      exact ⟨_, ha, hseen, rfl, Except.ok.inj (hok.symm.trans (assign_text ha hseen))⟩

/-- The lines are accepted when each is an assignment to a field that none before it has. -/
theorem foldlM_assign {ls : List (List Char)} : ls.foldlM (assign id) s = .ok s' ↔ ∃ as : List Assignment,
    (∀ a ∈ as, a.Valid) ∧ (as.map (·.field)).Nodup ∧ (∀ a ∈ as, a.field ∉ s.seen) ∧ ls = as.map (·.text) ∧
      s' = as.foldl Parsed.set s := by
  induction ls generalizing s with
  | nil =>
    constructor
    · intro h
      exact ⟨[], nofun, nodup_nil, nofun, rfl, (Except.ok.inj h).symm⟩
    · rintro ⟨as, -, -, -, hls, rfl⟩
      rw [map_eq_nil_iff.1 hls.symm]
      rfl
  | cons line ls ih =>
    rw [foldlM_cons]
    constructor
    · intro h
      cases hline : assign id s line with
      | error =>
        rw [hline] at h
        cases h
      | ok s₁ =>
        rw [hline] at h
        obtain ⟨a, ha, hseen, rfl, rfl⟩ := assign_ok hline
        obtain ⟨as, hall, hnodup, hfresh, rfl, rfl⟩ := ih.1 h
        refine ⟨a :: as, forall_mem_cons.2 ⟨ha, hall⟩, nodup_cons.2 ⟨?_, hnodup⟩, forall_mem_cons.2 ⟨hseen, ?_⟩, rfl, rfl⟩
        · rw [mem_map]
          rintro ⟨b, hb, heq⟩
          exact hfresh b hb (heq ▸ mem_cons_self)
        · exact fun b hb hin => hfresh b hb (mem_cons_of_mem _ hin)
    · rintro ⟨as, hall, hnodup, hfresh, hls, rfl⟩
      cases as with
      | nil => cases hls
      | cons a as =>
        obtain ⟨rfl, rfl⟩ := cons.inj hls
        obtain ⟨hne, hnodup⟩ := nodup_cons.1 hnodup
        rw [forall_mem_cons] at hall hfresh
        rw [assign_text hall.1 hfresh.1]
        refine ih.2 ⟨as, hall.2, hnodup, fun b hb hin => ?_, rfl, rfl⟩
        obtain heq | hin := mem_cons.1 hin
        · exact hne (mem_map.2 ⟨b, hb, heq⟩)
        · exact hfresh.2 b hb hin

theorem foldl_set (as : List Assignment) (hnodup : (as.map (·.field)).Nodup) (f : Field) :
    (as.foldl Parsed.set s).value f = (named as f).getD (s.value f) := by
  induction as generalizing s with
  | nil => rfl
  | cons a as ih =>
    obtain ⟨hne, hnodup⟩ := nodup_cons.1 hnodup
    rw [foldl_cons, ih hnodup, named, named, find?_cons]
    by_cases hf : a.field = f
    · have hnone : as.find? (·.field = f) = none := find?_eq_none.2 fun b hb hbf =>
        hne (mem_map.2 ⟨b, hb, (by simpa using hbf : b.field = f).trans hf.symm⟩)
      rw [hnone, decide_eq_true hf, ← hf]
      exact Function.update_self ..
    · rw [decide_eq_false hf]
      exact congrArg _ (Function.update_of_ne (Ne.symm hf) ..)

theorem foldl_seen (as : List Assignment) : (as.foldl Parsed.set s).seen = [] ↔ as = [] ∧ s.seen = [] := by
  induction as generalizing s with
  | nil => simp
  | cons a as ih => simp [ih, Parsed.set]

/-! ## Requests -/

variable {as : List Assignment} {request : List Char} {config slice fragment : Nat}

theorem update_eq (config : Nat) (request : List Char) (hwrap : ∀ x < 2 ^ 64, wrap x = x) :
    updateWith wrap config request = updateWith id config request := by
  rw [updateWith, assign_wrap hwrap, updateWith]

theorem lines_requests (h : Requests as request) : lines request = as.map (·.text) := by
  have hls : as.map (·.text) ≠ [] := by simpa using h.some
  have hline : ∀ l ∈ as.map (·.text), '\n' ∉ l ∧ l ≠ [] := by
    intro l hl
    obtain ⟨a, ha, rfl⟩ := mem_map.1 hl
    refine ⟨fun hin => ?_, by simp [Assignment.text]⟩
    obtain hin | hin := mem_append.1 hin
    · exact (not_mem_key a.field).2 hin
    · obtain heq | hin := mem_cons.1 hin
      · exact absurd heq (by decide)
      · exact absurd ((h.valid a ha).digits _ hin) (by decide)
  obtain hreq | hreq := h.text <;> rw [hreq]
  · exact (lines_intercalate hls hline).1
  · exact (lines_intercalate hls hline).2

theorem updateWith_ok (h : Requests as request) : updateWith id config request = (none,
    pack ((named as .slice).getD (current config .slice)) ((named as .fragment).getD (current config .fragment))) := by
  have hlines := lines_requests h
  have hget : request ≠ "GET".toList := by
    rintro rfl
    obtain ⟨a, as, rfl⟩ := exists_cons_of_ne_nil h.some
    have htext : "GET".toList = a.text := (cons.inj hlines).1
    have hin : '=' ∈ "GET".toList := htext ▸ mem_append_right _ mem_cons_self
    exact absurd hin (by decide)
  have hfold := (foldlM_assign (s := ⟨current config, []⟩)).2 ⟨as, h.valid, h.distinct, fun _ _ => not_mem_nil, hlines, rfl⟩
  rw [updateWith, if_neg hget, hfold]
  dsimp only
  rw [if_neg fun hnil => h.some ((foldl_seen as).1 hnil).1, foldl_set as h.distinct, foldl_set as h.distinct]

theorem updateWith_error (hget : request ≠ "GET".toList) (h : ¬ ∃ as, Requests as request) :
    ∃ error, updateWith id config request = (some error, config) := by
  rw [updateWith, if_neg hget]
  cases hfold : (lines request).foldlM (assign id) ⟨current config, []⟩ with
  | error e => exact ⟨e, rfl⟩
  | ok s =>
    obtain ⟨as, hall, hnodup, -, hlines, rfl⟩ := foldlM_assign.1 hfold
    refine ⟨"empty request", if_pos ((foldl_seen as).2 ⟨?_, rfl⟩)⟩
    by_contra hne
    exact h ⟨as, hne, hnodup, hall, hlines ▸ intercalate_lines request⟩

theorem current_pack (hslice : slice < 2 ^ 32) :
    current (pack slice fragment) .slice = slice ∧ current (pack slice fragment) .fragment = min fragment slice := by
  have hmin : (if fragment < slice then fragment else slice) = min fragment slice := by split_ifs <;> omega
  have hlt : min fragment slice < 2 ^ 32 := (Nat.min_le_right ..).trans_lt hslice
  rw [pack, hmin, ← Nat.shiftLeft_add_eq_or_of_lt hlt, current, current, Nat.shiftLeft_eq, Nat.shiftRight_eq_div_pow]
  omega

/-- The word of an engine: the fragment is limited to the slice, and the slice to 1 GiB. -/
structure Limited (config : Nat) : Prop where
  fragment_le : current config .fragment ≤ current config .slice
  slice_le : current config .slice ≤ kMaxSliceSize

theorem limited_pack (h : slice ≤ kMaxSliceSize) : Limited (pack slice fragment) := by
  have hlt : slice < 2 ^ 32 := h.trans_lt (by decide)
  obtain ⟨hslice, hfragment⟩ := @current_pack slice fragment hlt
  refine ⟨?_, hslice.trans_le h⟩
  rw [hslice, hfragment]
  exact Nat.min_le_right ..

theorem limited_initial (slice fragment : Int) : Limited (initial slice fragment) := by
  refine limited_pack ?_
  unfold clampParam kMaxSliceSize
  split_ifs <;> omega

theorem Limited.update (h : Limited config) (request : List Char) : Limited (update config request).2 := by
  rw [Control.update, update_eq config request fun x hx => Nat.mod_eq_of_lt hx]
  by_cases hget : request = "GET".toList
  · rwa [updateWith, if_pos hget]
  by_cases hreq : ∃ as, Requests as request
  · obtain ⟨as, has⟩ := hreq
    rw [updateWith_ok has]
    refine limited_pack ?_
    cases hf : named as .slice with
    | none => exact h.slice_le
    | some v =>
      obtain ⟨a, ha, rfl⟩ := Option.map_eq_some_iff.1 hf
      exact (has.valid a (mem_of_find?_eq_some ha)).le
  · obtain ⟨error, he⟩ : ∃ error, updateWith id config request = (some error, config) := updateWith_error hget hreq
    rwa [he]

/-- **A request does all that it says or nothing**, and over any sequence of requests the word of an engine stays within the
limits. -/
theorem control_exact :
    (∀ config request,
      (request = "GET".toList → update config request = (none, config)) ∧
      (∀ as, Requests as request → update config request = (none, pack ((named as .slice).getD (current config .slice))
        ((named as .fragment).getD (current config .fragment)))) ∧
      (request ≠ "GET".toList → (¬ ∃ as, Requests as request) → ∃ error, update config request = (some error, config)) ∧
      ∀ wrap, (∀ x < 2 ^ 64, wrap x = x) → updateWith wrap config request = update config request) ∧
    ∀ slice fragment (requests : List (List Char)),
      Limited (requests.foldl (fun config request => (update config request).2) (initial slice fragment)) := by
  have hmod : ∀ x < 2 ^ 64, x % 2 ^ 64 = x := fun x hx => Nat.mod_eq_of_lt hx
  refine ⟨fun config request => ⟨fun hget => ?_, fun as has => ?_, fun hget hno => ?_, fun wrap hwrap => ?_⟩,
    fun slice fragment requests => ?_⟩
  · exact if_pos hget
  · rw [update, update_eq config request hmod, updateWith_ok has]
  · rw [update, update_eq config request hmod]
    exact updateWith_error hget hno
  · rw [update, update_eq config request hwrap, update_eq config request hmod]
  · exact foldlRecOn requests _ (limited_initial slice fragment) fun config h request _ => h.update request

end FlagCX.P2p.Control

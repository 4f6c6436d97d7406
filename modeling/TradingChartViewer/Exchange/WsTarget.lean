import Mathlib.Data.List.Infix
import TradingChartViewer.Lib.Template

/-!
# The target of the WebSocket handshake

`formatWsTarget` puts the symbol and the interval into the path template of the
configuration. `ExchangeGateway.cpp` and `WebSocketClient.cpp` each have their
own; the loops are recursions on what is left of the template.

* `formatWsTarget_eq`: they give the same target; `formatLoop_eq_fill`: the loop
  by the values it fills in;
* `head?_formatWsTarget_iff`: when the target starts with a slash;
* `targetLaw_iff`: when all that is said of the target holds.
-/

namespace TCV.Exchange

open Lib.Template

/-! ## ExchangeGateway.cpp -/

namespace ExchangeGateway

def formatLoop (lowerSymbol intervalLabel : List Char) (placeholderIndex : Nat)
    (result : List Char) : List Char → List Char
  | [] => result
  | [c] => result ++ [c]
  | c :: d :: rest =>
    if c = '%' && d = 's' then
      let value :=
        if placeholderIndex = 0 then lowerSymbol
        else if placeholderIndex = 1 then intervalLabel
        else "%s".toList
      formatLoop lowerSymbol intervalLabel (placeholderIndex + 1) (result ++ value) rest
    else formatLoop lowerSymbol intervalLabel placeholderIndex (result ++ [c]) (d :: rest)

def formatWsTarget (templ lowerSymbol intervalLabel : List Char) : List Char :=
  if ¬"%s".toList <:+: templ then
    let base := if templ.isEmpty then "/ws".toList else templ
    let base := if !base.isEmpty && base.getLast? ≠ some '/' then base ++ ['/'] else base
    base ++ lowerSymbol ++ "@kline_".toList ++ intervalLabel
  else
    let result := formatLoop lowerSymbol intervalLabel 0 [] templ
    if !result.isEmpty && result.head? ≠ some '/' then '/' :: result else result

end ExchangeGateway

/-! ## WebSocketClient.cpp -/

namespace WebSocketClient

def formatLoop (lowerSymbol interval : List Char) (placeholderIndex : Nat)
    (result : List Char) : List Char → List Char
  | [] => result
  | [c] => result ++ [c]
  | c :: d :: rest =>
    if c = '%' && d = 's' then
      let value :=
        if placeholderIndex = 0 then lowerSymbol
        else if placeholderIndex = 1 then interval
        else "%s".toList
      formatLoop lowerSymbol interval (placeholderIndex + 1) (result ++ value) rest
    else formatLoop lowerSymbol interval placeholderIndex (result ++ [c]) (d :: rest)

def formatWsTarget (templ lowerSymbol interval : List Char) : List Char :=
  if ¬"%s".toList <:+: templ then
    let base := if templ.isEmpty then "/ws".toList else templ
    let base := if !base.isEmpty && base.getLast? ≠ some '/' then base ++ ['/'] else base
    base ++ lowerSymbol ++ "@kline_".toList ++ interval
  else
    let result := formatLoop lowerSymbol interval 0 [] templ
    if !result.isEmpty && result.head? ≠ some '/' then '/' :: result else result

end WebSocketClient

variable {templ symbol interval : List Char}

theorem formatLoop_eq (symbol interval : List Char) (index : Nat) (result templ : List Char) :
    ExchangeGateway.formatLoop symbol interval index result templ =
      WebSocketClient.formatLoop symbol interval index result templ := by
  fun_induction ExchangeGateway.formatLoop symbol interval index result templ with
  | case1 => rfl
  | case2 => rfl
  | case3 index result c d rest h value ih =>
    rw [WebSocketClient.formatLoop, if_pos h]
    exact ih
  | case4 index result c d rest h ih =>
    rw [WebSocketClient.formatLoop, if_neg h]
    exact ih

theorem formatWsTarget_eq (templ symbol interval : List Char) :
    ExchangeGateway.formatWsTarget templ symbol interval =
      WebSocketClient.formatWsTarget templ symbol interval := by
  simp only [ExchangeGateway.formatWsTarget, WebSocketClient.formatWsTarget, formatLoop_eq]

/-! ## The target -/

namespace ExchangeGateway

theorem headD_drop_placeholders (index : Nat) :
    ([symbol, interval].drop index).headD ['%', 's'] =
      if index = 0 then symbol else if index = 1 then interval else "%s".toList := by
  match index with
  | 0 => rfl
  | 1 => rfl
  | index + 2 =>
    rw [List.drop_eq_nil_of_le (Nat.le_add_left 2 index), if_neg (by omega), if_neg (by omega)]
    rfl

/-- The loop fills in the symbol and the interval. -/
theorem formatLoop_eq_fill (index : Nat) (result templ : List Char) :
    formatLoop symbol interval index result templ =
      result ++ fill '%' 's' ([symbol, interval].drop index) templ := by
  fun_induction formatLoop symbol interval index result templ with
  | case1 index result => exact (List.append_nil result).symm
  | case2 index result c => rfl
  | case3 index result c d rest h value ih =>
    have hvalue : ([symbol, interval].drop index).headD ['%', 's'] = value :=
      headD_drop_placeholders index
    rw [ih, fill, if_pos (by simpa using h), hvalue, List.tail_drop, List.append_assoc]
  | case4 index result c d rest h ih =>
    rw [ih, fill, if_neg (by simpa using h), List.append_assoc]
    rfl

/-- With a slash before it, if it does not start with one. -/
def slashed (path : List Char) : List Char :=
  if path.head? = some '/' then path else '/' :: path

theorem head?_slashed (path : List Char) : (slashed path).head? = some '/' := by
  unfold slashed
  split
  · assumption
  · rfl

theorem formatWsTarget_of_filled (h : "%s".toList <:+: templ) :
    formatWsTarget templ symbol interval =
      if fill '%' 's' [symbol, interval] templ = [] then []
      else slashed (fill '%' 's' [symbol, interval] templ) := by
  have hloop : formatLoop symbol interval 0 [] templ = fill '%' 's' [symbol, interval] templ :=
    formatLoop_eq_fill 0 [] templ
  simp only [formatWsTarget, if_neg (not_not.mpr h), hloop, slashed]
  cases fill '%' 's' [symbol, interval] templ with
  | nil => rfl
  | cons c rest =>
    rw [if_neg (List.cons_ne_nil c rest)]
    by_cases hc : (c :: rest).head? = some '/'
    · rw [if_pos hc, if_neg (by simp [hc])]
    · rw [if_neg hc, if_pos (by simpa using hc)]

/-- The start of a target without placeholders. -/
def base (templ : List Char) : List Char :=
  let base := if templ.isEmpty then "/ws".toList else templ
  if !base.isEmpty && base.getLast? ≠ some '/' then base ++ ['/'] else base

theorem formatWsTarget_of_plain (h : ¬"%s".toList <:+: templ) :
    formatWsTarget templ symbol interval =
      base templ ++ (symbol ++ ("@kline_".toList ++ interval)) := by
  simp only [formatWsTarget, if_pos h, base, List.append_assoc]

theorem head?_base (templ rest : List Char) :
    (base templ ++ rest).head? = some '/' ↔ templ = [] ∨ templ.head? = some '/' := by
  cases templ with
  | nil => exact iff_of_true rfl (.inl rfl)
  | cons c templ =>
    have hbase : ∃ more, base (c :: templ) = c :: more := by
      unfold base
      simp only [List.isEmpty_cons, Bool.false_eq_true, if_false]
      split
      · exact ⟨_, rfl⟩
      · exact ⟨_, rfl⟩
    obtain ⟨more, hbase⟩ := hbase
    rw [hbase, or_iff_right (List.cons_ne_nil c templ)]
    exact Iff.rfl

/-! ## What is said of the target -/

/-- The target is a path with the symbol and the interval in it. -/
structure TargetLaw (templ symbol interval : List Char) : Prop where
  same : formatWsTarget templ symbol interval = WebSocketClient.formatWsTarget templ symbol interval
  slash : (formatWsTarget templ symbol interval).head? = some '/'
  /-- `a`, `b` and `c` are what stands before, between and after the first two placeholders. -/
  filled : ∀ a b c, templ = a ++ "%s".toList ++ b ++ "%s".toList ++ c → ¬"%s".toList <:+: a →
    ¬"%s".toList <:+: b →
      formatWsTarget templ symbol interval = slashed (a ++ symbol ++ b ++ interval ++ c)
  stream : ¬"%s".toList <:+: templ →
    symbol ++ "@kline_".toList ++ interval <:+ formatWsTarget templ symbol interval

/-- A template without placeholders is empty or starts with a slash, and one of
placeholders only has something to put in them. -/
structure TemplateFits (templ symbol interval : List Char) : Prop where
  slash : ¬"%s".toList <:+: templ → templ = [] ∨ templ.head? = some '/'
  one : templ = "%s".toList → symbol ≠ []
  two : templ = "%s%s".toList → symbol ≠ [] ∨ interval ≠ []

theorem fill_eq_nil_iff_placeholders (h : "%s".toList <:+: templ) :
    fill '%' 's' [symbol, interval] templ = [] ↔
      (templ = "%s".toList ∧ symbol = []) ∨
        templ = "%s%s".toList ∧ symbol = [] ∧ interval = [] := by
  have hne : templ ≠ [] := by
    rintro rfl
    exact absurd (List.infix_nil.mp h) (by decide)
  rw [fill_eq_nil_iff, or_iff_right hne]
  simp only [fill_eq_nil_iff, fill_nil]
  constructor
  · rintro ⟨rest, rfl, hsymbol, rfl | ⟨rest, rfl, hinterval, rfl⟩⟩
    · exact .inl ⟨rfl, hsymbol⟩
    · exact .inr ⟨rfl, hsymbol, hinterval⟩
  · rintro (⟨rfl, hsymbol⟩ | ⟨rfl, hsymbol, hinterval⟩)
    · exact ⟨[], rfl, hsymbol, .inl rfl⟩
    · exact ⟨['%', 's'], rfl, hsymbol, .inr ⟨[], rfl, hinterval, rfl⟩⟩

theorem head?_formatWsTarget_iff (templ symbol interval : List Char) :
    (formatWsTarget templ symbol interval).head? = some '/' ↔
      TemplateFits templ symbol interval := by
  by_cases h : "%s".toList <:+: templ
  · have hfill : (formatWsTarget templ symbol interval).head? = some '/' ↔
        fill '%' 's' [symbol, interval] templ ≠ [] := by
      rw [formatWsTarget_of_filled h]
      split
      · rename_i hnil
        exact iff_of_false (fun hhead => nomatch hhead) (not_not.mpr hnil)
      · rename_i hne
        exact iff_of_true (head?_slashed _) hne
    rw [hfill, Ne, fill_eq_nil_iff_placeholders h, not_or]
    constructor
    · rintro ⟨hone, htwo⟩
      exact ⟨fun hno => absurd h hno, fun ht hs => hone ⟨ht, hs⟩,
        fun ht => not_and_or.mp fun hs => htwo ⟨ht, hs⟩⟩
    · rintro ⟨-, hone, htwo⟩
      refine ⟨fun hs => hone hs.1 hs.2, fun hs => ?_⟩
      exact (htwo hs.1).elim (fun hne => hne hs.2.1) fun hne => hne hs.2.2
  · rw [formatWsTarget_of_plain h, head?_base]
    refine ⟨fun hslash => ⟨fun _ => hslash, ?_, ?_⟩, fun hfits => hfits.slash h⟩
    · rintro rfl
      exact absurd (List.infix_refl _) h
    · rintro rfl
      exact absurd ⟨[], "%s".toList, rfl⟩ h

theorem targetLaw_iff (templ symbol interval : List Char) :
    TargetLaw templ symbol interval ↔ TemplateFits templ symbol interval := by
  rw [← head?_formatWsTarget_iff]
  refine ⟨TargetLaw.slash, fun hslash => ⟨formatWsTarget_eq _ _ _, hslash, ?_, fun h => ?_⟩⟩
  · intro a b c htempl ha hb
    have hfill : fill '%' 's' [symbol, interval] templ = a ++ symbol ++ b ++ interval ++ c := by
      have hlist : templ = a ++ '%' :: 's' :: (b ++ '%' :: 's' :: c) := by
        simp only [htempl, List.append_assoc]
        rfl
      have hne : '%' ≠ 's' := by decide
      have ha : ¬['%', 's'] <:+: a := ha
      have hb : ¬['%', 's'] <:+: b := hb
      rw [hlist, fill_split hne ha, fill_split hne hb, fill_nil]
      simp only [List.append_assoc]
    have hholder : "%s".toList <:+: templ := ⟨a ++ "%s".toList ++ b, c, htempl.symm ▸ by simp⟩
    rw [formatWsTarget_of_filled hholder, hfill] at hslash ⊢
    split at hslash
    · cases hslash
    · rename_i hne
      exact if_neg hne
  · rw [formatWsTarget_of_plain h, List.append_assoc]
    exact List.suffix_append _ _

example : formatWsTarget "/ws/%s@kline_%s".toList "btcusdt".toList "1m".toList =
    "/ws/btcusdt@kline_1m".toList := by decide

/-- The target of the template `ws`, `ws/btcusdt@kline_1m`, has no slash before it. -/
theorem not_targetLaw : ¬TargetLaw "ws".toList "btcusdt".toList "1m".toList := by
  intro h
  have hslash := h.slash
  revert hslash
  decide

end ExchangeGateway

end TCV.Exchange

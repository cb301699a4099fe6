-- Guards: which programs may become components of a grammar. A guard looks at
-- the text of a program alone.

namespace SymbolInduction

/-- Says of a program's text whether the program may be promoted. -/
abbrev PromotionGuard := String → Bool

namespace PromotionGuard

/-- Whether a text occurs within another one. The empty text occurs in all. -/
def occurs (marker : List Char) : List Char → Bool
  | [] => marker.isEmpty
  | c :: cs => marker.isPrefixOf (c :: cs) || occurs marker cs

/-- Refuses texts in which one of the markers occurs. -/
def forbidding (markers : List String) : PromotionGuard := fun description =>
  !markers.any fun m => occurs m.toList description.toList

/-- The markers of programs that slow a search down the most: promoted
programs and plain arithmetic. -/
def slowMarkers : List String := ["#", "+", "-"]

/-- Permits all programs. -/
def permitAll : PromotionGuard := fun _ => true

/-- What `occurs` finds is a part of the text, and it finds every part. -/
theorem occurs_iff {marker text : List Char} : occurs marker text = true ↔ marker <:+: text := by
  induction text with
  | nil => simp [occurs]
  | cons c cs ih => simp [occurs, ih, List.infix_cons_iff]

end PromotionGuard

end SymbolInduction

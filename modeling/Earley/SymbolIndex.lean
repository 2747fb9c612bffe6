import Earley.Symbol

/-!
# Values filed under symbols

A grammar looks up its productions by head and a chart column its items by the symbol after the
dot.  `SymbolIndex` serves both: `file` puts a value behind those already under its symbol and
`filed` gives them back in that order.
-/

set_option autoImplicit false

namespace Earley

/-- For each symbol that was used, the values filed under it in order. -/
structure SymbolIndex (α : Type) where
  drawers : List (Symbol × List α)

namespace SymbolIndex

variable {α : Type}

def empty : SymbolIndex α := ⟨[]⟩

def filedIn (s : Symbol) : List (Symbol × List α) → List α
  | [] => []
  | (t, values) :: rest => if t = s then values else filedIn s rest

/-- Adds a value to the drawer of a symbol, and a new drawer at the end if there is none. -/
def fileIn (s : Symbol) (x : α) : List (Symbol × List α) → List (Symbol × List α)
  | [] => [(s, [x])]
  | (t, values) :: rest =>
    if t = s then (t, values ++ [x]) :: rest else (t, values) :: fileIn s x rest

def filed (index : SymbolIndex α) (s : Symbol) : List α :=
  filedIn s index.drawers

def file (index : SymbolIndex α) (s : Symbol) (x : α) : SymbolIndex α :=
  ⟨fileIn s x index.drawers⟩

theorem filedIn_fileIn (s t : Symbol) (x : α) (drawers : List (Symbol × List α)) :
    filedIn t (fileIn s x drawers) =
      if t = s then filedIn t drawers ++ [x] else filedIn t drawers := by
  induction drawers with
  | nil =>
    by_cases same : s = t
    · simp [fileIn, filedIn, same]
    · simp [fileIn, filedIn, same, Ne.symm same]
  | cons drawer rest ih =>
    obtain ⟨u, values⟩ := drawer
    by_cases here : u = s
    · subst here
      by_cases same : u = t
      · simp [fileIn, filedIn, same]
      · simp [fileIn, filedIn, same, Ne.symm same]
    · by_cases wanted : u = t
      · subst wanted
        simp [fileIn, filedIn, here]
      · simp [fileIn, filedIn, here, wanted, ih]

/-- Filing changes the values of one symbol only, and there adds at the end. -/
theorem filed_file (index : SymbolIndex α) (s t : Symbol) (x : α) :
    (index.file s x).filed t =
      if t = s then index.filed t ++ [x] else index.filed t :=
  filedIn_fileIn s t x index.drawers

end SymbolIndex

end Earley

/-!
# Ascending lists

Sets that are shown in order are listed in ascending order and without
repetition.
-/

namespace NamedLogic

variable {α : Type} [LT α] [DecidableLT α]

/-- Insert an element into an ascending list, unless it is there already. -/
def insertAscending (element : α) : List α → List α
  | [] => [element]
  | head :: tail =>
      if element < head then
        element :: head :: tail
      else if head < element then
        head :: insertAscending element tail
      else
        head :: tail

/-- The members of a list in ascending order, each once. -/
def ascending (elements : List α) : List α :=
  elements.foldr insertAscending []

end NamedLogic

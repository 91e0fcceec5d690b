import Mathlib.Init

namespace DBPlayground.Storage

abbrev PageId := Int

def invalidPageId : PageId := -1

def headerPageId : PageId := 0

def pageSize : Nat := 16384

def kKeyLen : Nat := 8

def valuePageHeaderSize : Nat := 12

def valueSlotSize : Nat := 8

def maxValueSize : Nat := pageSize - valuePageHeaderSize - valueSlotSize

end DBPlayground.Storage

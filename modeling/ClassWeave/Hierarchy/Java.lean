import ClassWeave.Hierarchy

/-!
# Classes of the Java library

The library classes that are met most often in frames: errors and exceptions, strings and their builders, boxed
numbers, and the interfaces around them.
-/

namespace ClassWeave.Hierarchy

/-- Names, superclasses, interfaces, and whether the class is an interface. Superclasses stand before their
subclasses. -/
def javaClassTable : List (String × Option String × List String × Bool) := [
  ("java/lang/Object", none, [], false),
  ("java/io/Serializable", some "java/lang/Object", [], true),
  ("java/lang/Cloneable", some "java/lang/Object", [], true),
  ("java/lang/Comparable", some "java/lang/Object", [], true),
  ("java/lang/CharSequence", some "java/lang/Object", [], true),
  ("java/lang/Appendable", some "java/lang/Object", [], true),
  ("java/lang/Iterable", some "java/lang/Object", [], true),
  ("java/lang/Runnable", some "java/lang/Object", [], true),
  ("java/lang/AutoCloseable", some "java/lang/Object", [], true),
  ("java/util/Collection", some "java/lang/Object", ["java/lang/Iterable"], true),
  ("java/util/List", some "java/lang/Object", ["java/util/Collection"], true),
  ("java/util/Map", some "java/lang/Object", [], true),
  ("java/lang/String", some "java/lang/Object",
    ["java/io/Serializable", "java/lang/Comparable", "java/lang/CharSequence"], false),
  ("java/lang/AbstractStringBuilder", some "java/lang/Object",
    ["java/lang/Appendable", "java/lang/CharSequence"], false),
  ("java/lang/StringBuilder", some "java/lang/AbstractStringBuilder",
    ["java/io/Serializable", "java/lang/CharSequence"], false),
  ("java/lang/StringBuffer", some "java/lang/AbstractStringBuilder",
    ["java/io/Serializable", "java/lang/CharSequence"], false),
  ("java/lang/Class", some "java/lang/Object", ["java/io/Serializable"], false),
  ("java/lang/Number", some "java/lang/Object", ["java/io/Serializable"], false),
  ("java/lang/Integer", some "java/lang/Number", ["java/lang/Comparable"], false),
  ("java/lang/Long", some "java/lang/Number", ["java/lang/Comparable"], false),
  ("java/lang/Float", some "java/lang/Number", ["java/lang/Comparable"], false),
  ("java/lang/Double", some "java/lang/Number", ["java/lang/Comparable"], false),
  ("java/lang/Short", some "java/lang/Number", ["java/lang/Comparable"], false),
  ("java/lang/Byte", some "java/lang/Number", ["java/lang/Comparable"], false),
  ("java/lang/Boolean", some "java/lang/Object", ["java/io/Serializable", "java/lang/Comparable"], false),
  ("java/lang/Character", some "java/lang/Object", ["java/io/Serializable", "java/lang/Comparable"], false),
  ("java/lang/invoke/MethodType", some "java/lang/Object", ["java/io/Serializable"], false),
  ("java/lang/invoke/MethodHandle", some "java/lang/Object", [], false),
  ("java/lang/Throwable", some "java/lang/Object", ["java/io/Serializable"], false),
  ("java/lang/Error", some "java/lang/Throwable", [], false),
  ("java/lang/AssertionError", some "java/lang/Error", [], false),
  ("java/lang/LinkageError", some "java/lang/Error", [], false),
  ("java/lang/Exception", some "java/lang/Throwable", [], false),
  ("java/lang/InterruptedException", some "java/lang/Exception", [], false),
  ("java/lang/ReflectiveOperationException", some "java/lang/Exception", [], false),
  ("java/lang/ClassNotFoundException", some "java/lang/ReflectiveOperationException", [], false),
  ("java/io/IOException", some "java/lang/Exception", [], false),
  ("java/lang/RuntimeException", some "java/lang/Exception", [], false),
  ("java/lang/ArithmeticException", some "java/lang/RuntimeException", [], false),
  ("java/lang/ClassCastException", some "java/lang/RuntimeException", [], false),
  ("java/lang/IllegalArgumentException", some "java/lang/RuntimeException", [], false),
  ("java/lang/NumberFormatException", some "java/lang/IllegalArgumentException", [], false),
  ("java/lang/IllegalStateException", some "java/lang/RuntimeException", [], false),
  ("java/lang/IndexOutOfBoundsException", some "java/lang/RuntimeException", [], false),
  ("java/lang/NullPointerException", some "java/lang/RuntimeException", [], false),
  ("java/lang/UnsupportedOperationException", some "java/lang/RuntimeException", [], false),
  ("java/lang/SecurityException", some "java/lang/RuntimeException", [], false)]

/-- A class from names in text, if all of them are legal. -/
def infoOfTexts? (name : String) (superclass : Option String) (interfaces : List String) (isInterface : Bool) :
    Option ClassInfo := do
  let legal (text : String) : Option BinaryName := (BinaryName.ofString text).toOption
  return ⟨← legal name, superclass.bind legal, ← interfaces.mapM legal, isInterface⟩

/-- The hierarchy of the Java library classes. -/
def javaLibrary : Hierarchy :=
  javaClassTable.foldl (fun h row =>
    match infoOfTexts? row.1 row.2.1 row.2.2.1 row.2.2.2 with
    | some info => h.add info
    | none => h) empty

end ClassWeave.Hierarchy

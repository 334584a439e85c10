/-
The classes and interfaces of the standard library that programs commonly extend, with the methods
that can be overridden.  A method that one of them declares may be called from outside the program.
-/
namespace Unscramble

/-- A class or interface of the standard library: its direct super types and the methods that it
declares itself, each as its name directly followed by its descriptor. -/
structure LibraryClass where
  name : String
  supers : List String
  methods : List String
deriving Repr

namespace Library

/-- The known part of the standard library. -/
def classes : List LibraryClass :=
  [ { name := "java/lang/Object"
      supers := []
      methods := [ "equals(Ljava/lang/Object;)Z", "hashCode()I", "toString()Ljava/lang/String;",
                   "clone()Ljava/lang/Object;", "finalize()V" ] },
    { name := "java/lang/Runnable"
      supers := ["java/lang/Object"]
      methods := ["run()V"] },
    { name := "java/lang/Thread"
      supers := ["java/lang/Object", "java/lang/Runnable"]
      methods := ["run()V", "start()V", "interrupt()V"] },
    { name := "java/lang/Comparable"
      supers := ["java/lang/Object"]
      methods := ["compareTo(Ljava/lang/Object;)I"] },
    { name := "java/util/Comparator"
      supers := ["java/lang/Object"]
      methods := [ "compare(Ljava/lang/Object;Ljava/lang/Object;)I",
                   "equals(Ljava/lang/Object;)Z" ] },
    { name := "java/lang/Iterable"
      supers := ["java/lang/Object"]
      methods := ["iterator()Ljava/util/Iterator;"] },
    { name := "java/util/Iterator"
      supers := ["java/lang/Object"]
      methods := ["hasNext()Z", "next()Ljava/lang/Object;", "remove()V"] },
    { name := "java/util/Collection"
      supers := ["java/lang/Iterable"]
      methods := [ "size()I", "isEmpty()Z", "contains(Ljava/lang/Object;)Z",
                   "toArray()[Ljava/lang/Object;",
                   "toArray([Ljava/lang/Object;)[Ljava/lang/Object;",
                   "add(Ljava/lang/Object;)Z", "remove(Ljava/lang/Object;)Z",
                   "containsAll(Ljava/util/Collection;)Z", "addAll(Ljava/util/Collection;)Z",
                   "removeAll(Ljava/util/Collection;)Z", "retainAll(Ljava/util/Collection;)Z",
                   "clear()V" ] },
    { name := "java/util/List"
      supers := ["java/util/Collection"]
      methods := [ "get(I)Ljava/lang/Object;", "set(ILjava/lang/Object;)Ljava/lang/Object;",
                   "add(ILjava/lang/Object;)V", "remove(I)Ljava/lang/Object;",
                   "indexOf(Ljava/lang/Object;)I" ] },
    { name := "java/util/Set"
      supers := ["java/util/Collection"]
      methods := [] },
    { name := "java/util/Map"
      supers := ["java/lang/Object"]
      methods := [ "size()I", "isEmpty()Z", "get(Ljava/lang/Object;)Ljava/lang/Object;",
                   "put(Ljava/lang/Object;Ljava/lang/Object;)Ljava/lang/Object;",
                   "remove(Ljava/lang/Object;)Ljava/lang/Object;",
                   "containsKey(Ljava/lang/Object;)Z", "keySet()Ljava/util/Set;",
                   "values()Ljava/util/Collection;", "entrySet()Ljava/util/Set;", "clear()V" ] },
    { name := "java/lang/AutoCloseable"
      supers := ["java/lang/Object"]
      methods := ["close()V"] },
    { name := "java/io/Closeable"
      supers := ["java/lang/AutoCloseable"]
      methods := ["close()V"] },
    { name := "java/io/InputStream"
      supers := ["java/lang/Object", "java/io/Closeable"]
      methods := ["read()I", "read([B)I", "read([BII)I", "available()I", "skip(J)J", "close()V"] },
    { name := "java/io/OutputStream"
      supers := ["java/lang/Object", "java/io/Closeable"]
      methods := ["write(I)V", "write([B)V", "write([BII)V", "flush()V", "close()V"] },
    { name := "java/lang/Exception"
      supers := ["java/lang/Throwable"]
      methods := [] },
    { name := "java/lang/RuntimeException"
      supers := ["java/lang/Exception"]
      methods := [] },
    { name := "java/lang/Throwable"
      supers := ["java/lang/Object"]
      methods := [ "getMessage()Ljava/lang/String;", "getCause()Ljava/lang/Throwable;",
                   "fillInStackTrace()Ljava/lang/Throwable;" ] },
    { name := "java/awt/Component"
      supers := ["java/lang/Object", "java/awt/image/ImageObserver"]
      methods := [ "paint(Ljava/awt/Graphics;)V", "update(Ljava/awt/Graphics;)V", "repaint()V",
                   "setSize(II)V", "getPreferredSize()Ljava/awt/Dimension;", "addNotify()V",
                   "removeNotify()V" ] },
    { name := "java/awt/Container"
      supers := ["java/awt/Component"]
      methods := ["paint(Ljava/awt/Graphics;)V", "update(Ljava/awt/Graphics;)V", "doLayout()V"] },
    { name := "java/awt/Canvas"
      supers := ["java/awt/Component"]
      methods := ["paint(Ljava/awt/Graphics;)V", "update(Ljava/awt/Graphics;)V"] },
    { name := "java/awt/Panel"
      supers := ["java/awt/Container"]
      methods := [] },
    { name := "java/awt/Frame"
      supers := ["java/awt/Container"]
      methods := ["setTitle(Ljava/lang/String;)V"] },
    { name := "java/applet/Applet"
      supers := ["java/awt/Panel"]
      methods := [ "init()V", "start()V", "stop()V", "destroy()V",
                   "getParameter(Ljava/lang/String;)Ljava/lang/String;",
                   "getAppletContext()Ljava/applet/AppletContext;" ] },
    { name := "java/awt/image/ImageObserver"
      supers := ["java/lang/Object"]
      methods := ["imageUpdate(Ljava/awt/Image;IIIII)Z"] },
    { name := "java/awt/image/ImageProducer"
      supers := ["java/lang/Object"]
      methods := [ "addConsumer(Ljava/awt/image/ImageConsumer;)V",
                   "isConsumer(Ljava/awt/image/ImageConsumer;)Z",
                   "removeConsumer(Ljava/awt/image/ImageConsumer;)V",
                   "startProduction(Ljava/awt/image/ImageConsumer;)V",
                   "requestTopDownLeftRightResend(Ljava/awt/image/ImageConsumer;)V" ] },
    { name := "java/awt/event/KeyListener"
      supers := ["java/lang/Object"]
      methods := [ "keyTyped(Ljava/awt/event/KeyEvent;)V",
                   "keyPressed(Ljava/awt/event/KeyEvent;)V",
                   "keyReleased(Ljava/awt/event/KeyEvent;)V" ] },
    { name := "java/awt/event/MouseListener"
      supers := ["java/lang/Object"]
      methods := [ "mouseClicked(Ljava/awt/event/MouseEvent;)V",
                   "mousePressed(Ljava/awt/event/MouseEvent;)V",
                   "mouseReleased(Ljava/awt/event/MouseEvent;)V",
                   "mouseEntered(Ljava/awt/event/MouseEvent;)V",
                   "mouseExited(Ljava/awt/event/MouseEvent;)V" ] },
    { name := "java/awt/event/MouseMotionListener"
      supers := ["java/lang/Object"]
      methods := [ "mouseDragged(Ljava/awt/event/MouseEvent;)V",
                   "mouseMoved(Ljava/awt/event/MouseEvent;)V" ] },
    { name := "java/awt/event/MouseWheelListener"
      supers := ["java/lang/Object"]
      methods := ["mouseWheelMoved(Ljava/awt/event/MouseWheelEvent;)V"] },
    { name := "java/awt/event/FocusListener"
      supers := ["java/lang/Object"]
      methods := [ "focusGained(Ljava/awt/event/FocusEvent;)V",
                   "focusLost(Ljava/awt/event/FocusEvent;)V" ] },
    { name := "java/awt/event/WindowListener"
      supers := ["java/lang/Object"]
      methods := [ "windowOpened(Ljava/awt/event/WindowEvent;)V",
                   "windowClosing(Ljava/awt/event/WindowEvent;)V",
                   "windowClosed(Ljava/awt/event/WindowEvent;)V",
                   "windowIconified(Ljava/awt/event/WindowEvent;)V",
                   "windowDeiconified(Ljava/awt/event/WindowEvent;)V",
                   "windowActivated(Ljava/awt/event/WindowEvent;)V",
                   "windowDeactivated(Ljava/awt/event/WindowEvent;)V" ] } ]

def find? (name : String) : Option LibraryClass :=
  classes.find? (·.name == name)

/-- Whether a class declares a method itself or inherits it over at most so many steps. -/
def declaresWithin (signature : String) : (steps : Nat) → (name : String) → Bool
  | 0, _ => false
  | steps + 1, name =>
      match find? name with
      | some c => c.methods.contains signature || c.supers.any (declaresWithin signature steps)
      | none => false

/-- Whether a class of the standard library declares or inherits a method.  No chain of super types is
longer than the table. -/
def declares (owner name descriptor : String) : Bool :=
  declaresWithin (name ++ descriptor) classes.length owner

end Library

end Unscramble
